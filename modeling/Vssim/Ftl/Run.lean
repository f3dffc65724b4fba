import Vssim.Ftl.Init
import Vssim.Ftl.Write

/-!
# Runs

A run serves in-range requests one after the other, starting from a fresh `FTL_INIT`; each
entry of its history keeps the request, its result and its events. Every run is a trace of
the abstract page store (`Run.sim`), and while no collection aborts, no block is left in limbo
(`Run.inv`).
-/

namespace Vssim

open FlashStore Finset

/-- A host request: `_FTL_WRITE(sector_nb, length)` or `_FTL_READ(sector_nb, length)`. -/
inductive Request
  | write (sectorNb : ℤ) (length : ℕ)
  | read (sectorNb : ℤ) (length : ℕ)
  deriving DecidableEq, Repr

/-- A served request. -/
structure Served where
  request : Request
  ret : Ret
  events : List Event

variable (g : Geometry)

/-- Serving one in-range request. The fuel of the allocator's loop is whatever it takes. -/
inductive Serve : Ftl → Served → Ftl → Prop
  | write {s s' : Ftl} {sectorNb : ℤ} {length fuel : ℕ} {r : Ret} {events : List Event}
      (hreq : InRange g sectorNb length)
      (hrun : ftlWrite g fuel sectorNb length s = some (r, s', events)) :
      Serve s ⟨.write sectorNb length, r, events⟩ s'
  | read {s : Ftl} {sectorNb : ℤ} {length : ℕ} {r : Ret} {events : List Event}
      (hreq : InRange g sectorNb length)
      (hrun : ftlRead g sectorNb length s = (r, events)) :
      Serve s ⟨.read sectorNb length, r, events⟩ s

/-- A run from a fresh device. -/
abbrev Run (hist : List Served) (s : Ftl) : Prop := Trace (Serve g) (ftlInit g) hist s

/-- The event log of a history. -/
def eventLog (hist : List Served) : List Event := hist.flatMap Served.events

/-- No collection gave up in its copy loop. -/
def NoGcAbort (hist : List Served) : Prop := ∀ e ∈ hist, ¬ GcAborted e.events

variable {g} {s s' : Ftl} {σ : Store}

/-! ### Reads -/

/-- Every event of `_FTL_READ` is bookkeeping or a page read, in the state it was called in. -/
private theorem readPages_silent {n rounds k : ℕ} {c : Cursor} {ret : Ret} :
    ∀ e ∈ (readPages g n s rounds c k ret).2,
      e.call.Silent ∧ e.call ≠ .garbageCollection ∧ e.ftl = s := by
  induction rounds generalizing c k ret with
  | zero => simp [readPages]
  | succ rounds ih =>
    rw [readPages]
    split
    · intro e he
      rcases List.mem_cons.mp he with rfl | he
      · exact ⟨trivial, by simp, rfl⟩
      · exact ih e he
    · simp

theorem ftlRead_silent {sectorNb : ℤ} {length : ℕ} :
    ∀ e ∈ (ftlRead g sectorNb length s).2,
      e.call.Silent ∧ e.call ≠ .garbageCollection ∧ e.ftl = s := by
  rw [ftlRead]
  split
  · simp [Call.Silent]
  split
  · intro e he
    rcases List.mem_cons.mp he with rfl | he
    · exact ⟨trivial, by simp, rfl⟩
    rcases List.mem_append.mp he with he | he
    · exact readPages_silent e he
    · rw [List.mem_singleton.mp he]
      exact ⟨trivial, by simp, rfl⟩
  · simp

/-! ### Runs of the abstract store -/

/-- The host pages a served request programs: those of a write, in order. -/
def Request.pages (g : Geometry) : Request → List (ℤ × ℕ × Bool)
  | .write sectorNb length => requestPages g sectorNb length
  | .read _ _ => []

/-- One served request, as a trace of the abstract store. -/
theorem Serve.sim {e : Served} (h : FtlInv g s σ) (hserve : Serve g s e s') :
    ∃ labels σ', Sim g σ s' e.events labels σ' ∧ hostWrites labels <+: e.request.pages g ∧
      (e.ret = .success → hostWrites labels = e.request.pages g) ∧
      (¬ GcAborted e.events → σ'.limbo = σ.limbo) := by
  cases hserve with
  | write hreq hrun =>
    obtain ⟨labels, σ', hsim, hpre, hret, hlimbo⟩ := ftlWrite_sim h hreq hrun
    exact ⟨labels, σ', hsim, hpre, hret.mp, hlimbo⟩
  | @read sectorNb length r events hreq hrun =>
    have hsilent : ∀ e ∈ events, e.call.Silent ∧ FtlInv g e.ftl σ := fun e he => by
      have hev : events = (ftlRead g sectorNb length s).2 := by rw [hrun]
      obtain ⟨hcall, -, hftl⟩ := ftlRead_silent e (hev ▸ he)
      exact ⟨hcall, hftl ▸ h⟩
    exact ⟨_, σ, .silent hsilent h, List.prefix_rfl, fun _ => rfl, fun _ => rfl⟩

/-- Served requests from any represented state, as a trace of the abstract store. -/
private theorem serves_sim {s₀ : Ftl} {σ₀ : Store} {hist : List Served} (h₀ : FtlInv g s₀ σ₀)
    (htrace : Trace (Serve g) s₀ hist s) :
    ∃ labels σ, Sim g σ₀ s (eventLog hist) labels σ ∧ (NoGcAbort hist → σ.limbo = σ₀.limbo) := by
  induction htrace generalizing σ₀ with
  | nil s => exact ⟨[], σ₀, .refl h₀, fun _ => rfl⟩
  | cons hserve _ ih =>
    obtain ⟨ls₁, σ₁, hsim₁, -, -, hlimbo₁⟩ := hserve.sim h₀
    obtain ⟨ls₂, σ₂, hsim₂, hlimbo₂⟩ := ih hsim₁.inv
    refine ⟨_, σ₂, hsim₁.append hsim₂, fun hno => ?_⟩
    rw [hlimbo₂ fun e he => hno e (List.mem_cons_of_mem _ he), hlimbo₁ (hno _ (by simp))]

/-- **A run is a trace of the abstract store.** -/
theorem Run.sim (hdvd : g.planesPerFlash ∣ g.blockNb) {hist : List Served} (hrun : Run g hist s) :
    ∃ labels σ, Sim g emptyStore s (eventLog hist) labels σ ∧ (NoGcAbort hist → σ.limbo = ∅) :=
  serves_sim (ftlInit_inv hdvd) hrun

/-- **Every state of a run without aborted collections** represents a store with no block in
limbo. -/
theorem Run.inv (hdvd : g.planesPerFlash ∣ g.blockNb) {hist : List Served} (hrun : Run g hist s)
    (hgc : NoGcAbort hist) : ∃ σ, FtlInv g s σ ∧ σ.limbo = ∅ := by
  obtain ⟨labels, σ, hsim, hlimbo⟩ := Run.sim hdvd hrun
  exact ⟨σ, hsim.inv, hlimbo hgc⟩

/-! ### Executing runs -/

/-- The request lies within the device. -/
def Request.InRange (g : Geometry) : Request → Prop
  | .write sectorNb length | .read sectorNb length => Vssim.InRange g sectorNb length

instance (sectorNb : ℤ) (length : ℕ) : Decidable (InRange g sectorNb length) :=
  decidable_of_iff (0 ≤ sectorNb ∧ 1 ≤ length ∧ sectorNb + length ≤ g.sectorNb ∧
      sectorNb + length ≤ 2 ^ 31)
    ⟨fun ⟨h₁, h₂, h₃, h₄⟩ => ⟨h₁, h₂, h₃, h₄⟩,
      fun h => ⟨h.nonneg, h.pos, h.le_device, h.le_int32⟩⟩

instance : DecidablePred (Request.InRange g)
  | .write sectorNb length | .read sectorNb length =>
    inferInstanceAs (Decidable (InRange g sectorNb length))

variable (g) in
/-- Serve one request, with bounded fuel for the allocator's loop. -/
def serve (fuel : ℕ) (req : Request) (s : Ftl) : Option (Served × Ftl) :=
  match req with
  | .write sectorNb length => (ftlWrite g fuel sectorNb length s).map fun x => (⟨req, x.1, x.2.2⟩, x.2.1)
  | .read sectorNb length =>
    some (⟨req, (ftlRead g sectorNb length s).1, (ftlRead g sectorNb length s).2⟩, s)

variable (g) in
/-- Serve requests one after the other. -/
def serveAll (fuel : ℕ) : List Request → Ftl → Option (List Served × Ftl)
  | [], s => some ([], s)
  | req :: reqs, s => do
    let (e, s₁) ← serve g fuel req s
    let (es, s₂) ← serveAll fuel reqs s₁
    some (e :: es, s₂)

theorem serve_spec {fuel : ℕ} {req : Request} {e : Served} (hreq : req.InRange g)
    (hrun : serve g fuel req s = some (e, s')) : Serve g s e s' := by
  cases req with
  | write sectorNb length =>
    simp only [serve, Option.map_eq_some_iff, Prod.mk.injEq] at hrun
    obtain ⟨⟨r, s₁, ev⟩, hwrite, rfl, rfl⟩ := hrun
    exact .write hreq hwrite
  | read sectorNb length =>
    simp only [serve, Option.some.injEq, Prod.mk.injEq] at hrun
    obtain ⟨rfl, rfl⟩ := hrun
    exact .read hreq rfl

/-- Executions are runs. -/
theorem serveAll_trace {fuel : ℕ} {reqs : List Request} {hist : List Served}
    (hreqs : ∀ req ∈ reqs, req.InRange g) (hrun : serveAll g fuel reqs s = some (hist, s')) :
    Trace (Serve g) s hist s' := by
  induction reqs generalizing s hist with
  | nil =>
    cases hrun
    exact .nil _
  | cons req reqs ih =>
    simp only [serveAll, Option.bind_eq_bind, Option.bind_eq_some_iff] at hrun
    obtain ⟨⟨e, s₁⟩, hserve, ⟨es, s₂⟩, hrest, hrun⟩ := hrun
    cases hrun
    exact .cons (serve_spec (hreqs req (by simp)) hserve)
      (ih (fun r hr => hreqs r (List.mem_cons_of_mem _ hr)) hrest)

/-- The requests of an execution are the ones that it was given. -/
theorem serveAll_requests {fuel : ℕ} {reqs : List Request} {hist : List Served}
    (hrun : serveAll g fuel reqs s = some (hist, s')) : hist.map Served.request = reqs := by
  induction reqs generalizing s hist with
  | nil =>
    cases hrun
    rfl
  | cons req reqs ih =>
    simp only [serveAll, Option.bind_eq_bind, Option.bind_eq_some_iff] at hrun
    obtain ⟨⟨e, s₁⟩, hserve, ⟨es, s₂⟩, hrest, hrun⟩ := hrun
    cases hrun
    have hreq : e.request = req := by
      cases req with
      | write sectorNb length =>
        simp only [serve, Option.map_eq_some_iff, Prod.mk.injEq] at hserve
        obtain ⟨_, -, rfl, -⟩ := hserve
        rfl
      | read sectorNb length =>
        cases hserve
        rfl
    rw [List.map_cons, hreq, ih hrest]

instance : DecidablePred GcAborted := fun events =>
  decidable_of_iff (∃ e ∈ events, e.call = .error .garbageCollectionGetNewPageFail) Iff.rfl

instance : DecidablePred NoGcAbort := fun hist =>
  decidable_of_iff (∀ e ∈ hist, ¬ GcAborted e.events) Iff.rfl

/-- What an execution shows of its history and its final state holds of a run. -/
theorem exists_run (fuel : ℕ) (reqs : List Request) (P : List Served → Ftl → Bool)
    (hreqs : ∀ req ∈ reqs, req.InRange g)
    (hP : (serveAll g fuel reqs (ftlInit g)).any (fun x => P x.1 x.2) = true) :
    ∃ hist s, Run g hist s ∧ P hist s = true := by
  obtain ⟨⟨hist, s⟩, hrun, hhist⟩ := (Option.any_eq_true _ _).mp hP
  exact ⟨hist, s, serveAll_trace hreqs hrun, hhist⟩

/-- A run of the small device with partial writes, a read and two collections. -/
theorem smallDevice_run : ∃ hist s, Run smallDevice hist s ∧ NoGcAbort hist ∧
    hist.map Served.ret = List.replicate 7 .success ∧
    ∃ e ∈ eventLog hist, e.call = .ssdBlockErase 0 0 := by
  obtain ⟨hist, s, hrun, hP⟩ := exists_run (g := smallDevice) 30
    [.write 0 4, .write 1 2, .write 0 3, .write 2 2, .read 0 4, .write 0 1, .write 3 1]
    (fun hist _ => decide (NoGcAbort hist ∧ hist.map Served.ret = List.replicate 7 .success ∧
      ∃ e ∈ eventLog hist, e.call = .ssdBlockErase 0 0))
    (by decide +kernel) (by decide +kernel)
  exact ⟨hist, s, hrun, of_decide_eq_true hP⟩

end Vssim
