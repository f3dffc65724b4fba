import Vssim.Firm.Ordering
import Vssim.Firm.Threads

/-!
# The SSD thread that waits for a full buffer

With `SSD_THREAD_MODE_2` the SSD thread works only while the host waits for it in the loop on
`r_queue_full` or `w_queue_full` (`Handshake`). The threads never work at the same time, so every
schedule serves the requests as the build without the thread does (`mode2_refines`), and no
schedule runs into a deadlock: from wherever it has got to, all requests can be served to the end
(`mode2_completes`).
-/

namespace Vssim

variable {b : BufferConfig} {g : Geometry} {newPage : ℕ → Ret} {reqs : List Request}
  {req : Request} {d d₁ d' : Device b}

namespace Threads

section

variable (g newPage)

/-! ### The build without the thread, statement by statement -/

/-- The device after the requests `reqs`. -/
def Served (reqs : List Request) (d : Device b) : Prop :=
  (initIoBuffer b).serveAll g newPage reqs = .ok d

/-- The device after the requests `reqs` and the `DEQUEUE_COMPLETED_READ` of the next one. -/
def Cleared (reqs : List Request) (d : Device b) : Prop :=
  ∃ d₀, Served g newPage reqs d₀ ∧ d₀.dequeueCompletedRead = .ok d

/-- The buffer has no room for the request `req`. -/
abbrev Full (req : Request) (d : Device b) : Prop :=
  eventQueueIsFull req.ioType req.length d.firm = .success

/-- The device after the requests `reqs`, with room for `req`. -/
def Roomy (reqs : List Request) (req : Request) (d : Device b) : Prop :=
  ∃ d₁, Cleared g newPage reqs d₁ ∧
    (Full req d₁ ∧ d₁.secureBuffer g newPage req.ioType = .ok d ∨ ¬ Full req d₁ ∧ d = d₁)

end

private theorem served_concat_iff : Served g newPage (reqs ++ [req]) d' ↔
    ∃ d, Served g newPage reqs d ∧ d.serve g newPage req = .ok d' := by
  rw [Served, Device.serveAll, List.foldlM_append]
  simp only [Served, Device.serveAll]
  cases hd : reqs.foldlM (fun d req => d.serve g newPage req) (initIoBuffer b) with
  | error e =>
    refine ⟨fun h => ?_, ?_⟩
    · cases h
    · rintro ⟨d, h, -⟩
      cases h
  | ok d =>
    rw [ok_bind, List.foldlM_cons]
    refine ⟨fun h => ⟨d, rfl, ?_⟩, ?_⟩
    · cases hserve : d.serve g newPage req with
      | error e =>
        rw [hserve] at h
        cases h
      | ok d₁ =>
        rw [hserve] at h
        exact h
    · rintro ⟨d₁, h, hserve⟩
      cases h
      rw [hserve]
      rfl

/-- The end of a request. -/
private theorem Roomy.served (h : Roomy g newPage reqs req d)
    (hrun : d.enqueueIo g newPage req.ioType req.sectorNb req.length = .ok d') :
    Served g newPage (reqs ++ [req]) (d'.countRequest req) := by
  obtain ⟨d₁, ⟨d₀, hserved, hcleared⟩, hroom⟩ := h
  refine served_concat_iff.mpr ⟨d₀, hserved, ?_⟩
  rw [Device.serve_eq, hcleared, ok_bind]
  rcases hroom with ⟨hfull, hsecure⟩ | ⟨hfull, rfl⟩
  · rw [if_pos hfull, hsecure, ok_bind, hrun, ok_bind]
  · rw [if_neg hfull, ok_bind, hrun, ok_bind]

private theorem served_prefix {reqs' : List Request} (h : Served g newPage (reqs ++ reqs') d') :
    ∃ d : Device b, Served g newPage reqs d := by
  rw [Served, Device.serveAll, List.foldlM_append] at h
  obtain ⟨d, hd, -⟩ := Except.bind_eq_ok h
  exact ⟨d, hd⟩

/-- If the build without the thread serves the next request, none of its three parts faults. -/
private theorem serves_parts (hnext : Served g newPage (reqs ++ [req]) d') :
    (∀ d₀ : Device b, Served g newPage reqs d₀ → ∃ d₁, d₀.dequeueCompletedRead = .ok d₁) ∧
    (∀ d₁ : Device b, Cleared g newPage reqs d₁ → Full req d₁ →
      ∃ d₂, d₁.secureBuffer g newPage req.ioType = .ok d₂) ∧
    (∀ d₂ : Device b, Roomy g newPage reqs req d₂ →
      ∃ d₃, d₂.enqueueIo g newPage req.ioType req.sectorNb req.length = .ok d₃) := by
  obtain ⟨d₀, hserved, hserve⟩ := served_concat_iff.mp hnext
  rw [Device.serve_eq] at hserve
  obtain ⟨d₁, hclear, hserve⟩ := Except.bind_eq_ok hserve
  obtain ⟨d₂, hsecure, hserve⟩ := Except.bind_eq_ok hserve
  obtain ⟨d₃, henqueue, -⟩ := Except.bind_eq_ok hserve
  -- the parts are functions of the state they start from, so what was reached is what is reached
  have hcleared : ∀ d, Cleared g newPage reqs d → d = d₁ := by
    rintro d ⟨d₀', hserved', hclear'⟩
    cases hserved.symm.trans hserved'
    exact Except.ok.inj (hclear'.symm.trans hclear)
  refine ⟨?_, ?_, ?_⟩
  · intro d hd
    cases hserved.symm.trans hd
    exact ⟨d₁, hclear⟩
  · intro d hd hfull
    cases hcleared d hd
    rw [if_pos hfull] at hsecure
    exact ⟨d₂, hsecure⟩
  · rintro d ⟨d₁', hd, ⟨hfull, hrun⟩ | ⟨hfull, rfl⟩⟩
    · cases hcleared d₁' hd
      rw [if_pos hfull] at hsecure
      cases hsecure.symm.trans hrun
      exact ⟨d₃, henqueue⟩
    · cases hcleared d hd
      rw [if_neg hfull] at hsecure
      cases hsecure
      exact ⟨d₃, henqueue⟩

end Threads

/-! ### The invariant -/

/-- The host thread is in the loop on a flag: that of its request. -/
def HostPc.awaits : HostPc → Option IoType
  | .serving req .testFlag | .serving req .signalFull => some req.ioType
  | _ => none

/-- The request that the host thread serves and has not put on the queue yet. -/
def HostPc.pending : HostPc → List Request
  | .idle | .serving _ .unlockEq | .serving _ .signalReady => []
  | .serving req _ => [req]

/-- The SSD thread is in the second part of a `DEQUEUE_IO` of its own. -/
def SsdStmt.inDequeueIo : SsdStmt → Bool
  | .lockCq _ _ | .complete _ _ | .unlockCq => true
  | _ => false

namespace Threads

variable (g newPage) in
/-- How far the host thread is in the build without the thread. While it waits for a flag, the
buffer is emptied when the SSD thread comes to lower the flag. -/
def Progress (s : Threads b) : Prop :=
  match s.host with
  | .idle => Served g newPage s.enqueued s.device
  | .serving req stmt =>
    match stmt with
    | .lockCq | .dequeueCompletedRead | .unlockEq | .signalReady =>
      Served g newPage s.enqueued s.device
    | .unlockCq | .testFull => Cleared g newPage s.enqueued s.device
    | .raiseFlag => Cleared g newPage s.enqueued s.device ∧ Full req s.device
    | .testFlag | .signalFull =>
      if s.queueFull req.ioType = true ∧ s.ssd ≠ .lowerFlag req.ioType then
        Cleared g newPage s.enqueued s.device ∧ Full req s.device
      else Roomy g newPage s.enqueued req s.device
    | .lockEq | .enqueueIo => Roomy g newPage s.enqueued req s.device

variable (g newPage) in
/-- What holds in every state with `SSD_THREAD_MODE_2`: a flag is set only while the host waits for
it, and the SSD thread works only while a flag is set. -/
structure Handshake (reqs : List Request) (s : Threads b) : Prop where
  locks : Locks s
  progress : Progress g newPage s
  flag : ∀ ioType, s.queueFull ioType = true → s.host.awaits = some ioType
  body : s.ssd = .body → s.rQueueFull = true ∨ s.wQueueFull = true
  lower : ∀ ioType, s.ssd = .lowerFlag ioType → s.queueFull ioType = true
  apart : s.ssd.inDequeueIo = false
  order : s.enqueued ++ (s.host.pending ++ s.todo) = reqs

namespace Handshake

variable {s s' : Threads b}

private theorem start (b : BufferConfig) (reqs : List Request) :
    Handshake g newPage reqs (start b reqs) where
  locks := .start b reqs
  progress := rfl
  flag ioType hf := by cases ioType <;> simp [queueFull, Threads.start] at hf
  body hb := by simp [Threads.start] at hb
  lower ioType hl := by simp [Threads.start] at hl
  apart := rfl
  order := rfl

/-- No flag is set while the host is elsewhere. -/
private theorem noFlag (h : Handshake g newPage reqs s) (hawait : s.host.awaits = none)
    (ioType : IoType) : s.queueFull ioType = false := by
  by_contra hf
  rw [Bool.not_eq_false] at hf
  simp [h.flag ioType hf] at hawait

/-- A turn of the host thread that does not touch the flags and neither begins nor ends in the loop
on a flag. -/
theorem hostMove_elsewhere (h : Handshake g newPage reqs s)
    (hmove : HostMove g newPage .mode2 s s') (hawait : s.host.awaits = none)
    (hread : s'.rQueueFull = s.rQueueFull) (hwrite : s'.wQueueFull = s.wQueueFull)
    (hssd : s'.ssd = s.ssd ∨ s'.ssd = .awake) (hprogress : Progress g newPage s')
    (horder : s'.enqueued ++ (s'.host.pending ++ s'.todo) = reqs) :
    Handshake g newPage reqs s' := by
  have hflags : s'.queueFull = s.queueFull := by
    funext ioType
    cases ioType <;> simp [queueFull, hread, hwrite]
  have hoff := h.noFlag hawait
  refine
    { locks := h.locks.hostMove hmove
      progress := hprogress
      flag := fun ioType hf => by simp [hflags, hoff] at hf
      body := fun hb => ?_
      lower := fun ioType hl => ?_
      apart := ?_
      order := horder }
  · rcases hssd with hssd | hssd
    · rw [hread, hwrite]
      exact h.body (hssd ▸ hb)
    · cases hssd.symm.trans hb
  · rcases hssd with hssd | hssd
    · rw [hflags]
      exact h.lower ioType (hssd ▸ hl)
    · cases hssd.symm.trans hl
  · rcases hssd with hssd | hssd
    · rw [hssd]
      exact h.apart
    · rw [hssd]
      rfl

private theorem queueFull_setQueueFull {ioType ioType' : IoType} {v : Bool}
    (hf : (s.setQueueFull ioType v).queueFull ioType' = true) :
    ioType' = ioType ∧ v = true ∨ s.queueFull ioType' = true := by
  cases ioType' with
  | read =>
    by_cases hread : ioType = .read
    · simp_all [queueFull, setQueueFull]
    · exact .inr (by simpa [queueFull, setQueueFull, hread] using hf)
  | write =>
    by_cases hwrite : ioType = .write
    · simp_all [queueFull, setQueueFull]
    · exact .inr (by simpa [queueFull, setQueueFull, hwrite] using hf)
  | _ => cases hf

theorem queueFull_raised (req : Request) : (s.setQueueFull req.ioType true).queueFull req.ioType =
    true := by
  cases req <;> rfl

/-- A turn of the host thread. -/
private theorem hostMove (h : Handshake g newPage reqs s) (hmove : HostMove g newPage .mode2 s s') :
    Handshake g newPage reqs s' := by
  have hprogress := h.progress
  have horder := h.order
  have hmoved := hmove
  cases hmove with
  | begin hhost htodo =>
    simp only [Progress, hhost] at hprogress
    refine h.hostMove_elsewhere hmoved (by rw [hhost]; rfl) rfl rfl (.inl rfl) hprogress ?_
    simpa [hhost, htodo, HostPc.pending] using horder
  | lockCq hhost _ =>
    simp only [Progress, hhost] at hprogress
    refine h.hostMove_elsewhere hmoved (by rw [hhost]; rfl) rfl rfl (.inl rfl) hprogress ?_
    simpa [hhost, HostPc.pending] using horder
  | dequeueCompletedRead hhost hrun =>
    simp only [Progress, hhost] at hprogress
    refine h.hostMove_elsewhere hmoved (by rw [hhost]; rfl) rfl rfl (.inl rfl)
      ⟨_, hprogress, hrun⟩ ?_
    simpa [hhost, HostPc.pending] using horder
  | unlockCq hhost =>
    simp only [Progress, hhost] at hprogress
    refine h.hostMove_elsewhere hmoved (by rw [hhost]; rfl) rfl rfl (.inl rfl) hprogress ?_
    simpa [hhost, HostPc.pending] using horder
  | full hhost hfull =>
    simp only [Progress, hhost] at hprogress
    refine h.hostMove_elsewhere hmoved (by rw [hhost]; rfl) rfl rfl (.inl rfl) ⟨hprogress, hfull⟩ ?_
    simpa [hhost, HostPc.pending] using horder
  | notFull hhost hfull =>
    simp only [Progress, hhost] at hprogress
    refine h.hostMove_elsewhere hmoved (by rw [hhost]; rfl) rfl rfl (.inl rfl)
      ⟨_, hprogress, .inr ⟨hfull, rfl⟩⟩ ?_
    simpa [hhost, HostPc.pending] using horder
  | @raiseFlag req hhost =>
    simp only [Progress, hhost] at hprogress
    have hoff := h.noFlag (by rw [hhost]; rfl)
    refine
      { locks := h.locks.hostMove hmoved
        progress := ?_
        flag := fun ioType hf => ?_
        body := fun hb => ?_
        lower := fun ioType hl => ?_
        apart := h.apart
        order := by simpa [hhost, HostPc.pending, setQueueFull] using horder }
    · refine (if_pos ⟨queueFull_raised req, fun hl => ?_⟩).mpr hprogress
      simpa [hoff] using h.lower req.ioType hl
    · rcases queueFull_setQueueFull hf with ⟨rfl, -⟩ | hf
      · rfl
      · simp [hoff] at hf
    · have hread := hoff .read
      have hwrite := hoff .write
      rcases h.body hb with hf | hf
      · exact absurd (hread.symm.trans hf) (by simp)
      · exact absurd (hwrite.symm.trans hf) (by simp)
    · simpa [hoff] using h.lower ioType hl
  | stay hhost hflag =>
    simp only [Progress, hhost] at hprogress
    exact
      { locks := h.locks.hostMove hmoved
        progress := hprogress
        flag := fun ioType hf => by simpa [hhost, HostPc.awaits] using h.flag ioType hf
        body := h.body
        lower := h.lower
        apart := h.apart
        order := by simpa [hhost, HostPc.pending] using horder }
  | leave hhost hflag =>
    simp only [Progress, hhost, hflag, Bool.false_eq_true, false_and, if_false] at hprogress
    refine
      { locks := h.locks.hostMove hmoved
        progress := hprogress
        flag := fun ioType hf => ?_
        body := h.body
        lower := h.lower
        apart := h.apart
        order := by simpa [hhost, HostPc.pending] using horder }
    have hawait := h.flag ioType hf
    rw [hhost] at hawait
    cases hawait
    exact absurd (hflag.symm.trans hf) (by simp)
  | @signalFull req hhost =>
    simp only [Progress, hhost] at hprogress
    have hawake : ∀ stmt, stmt ≠ .awake → s.signalEqReady.ssd = stmt → s.ssd = stmt := by
      intro stmt hne heq
      rw [signalEqReady] at heq
      dsimp only at heq
      split at heq
      · exact absurd heq.symm hne
      · exact heq
    refine
      { locks := h.locks.hostMove hmoved
        progress := ?_
        flag := fun ioType hf => by simpa [hhost, HostPc.awaits] using h.flag ioType hf
        body := fun hb => h.body (hawake _ (by simp) hb)
        lower := fun ioType hl => h.lower ioType (hawake _ (by simp) hl)
        apart := ?_
        order := by simpa [hhost, HostPc.pending, signalEqReady] using horder }
    · have hiff : s.signalEqReady.ssd ≠ .lowerFlag req.ioType ↔ s.ssd ≠ .lowerFlag req.ioType := by
        refine not_congr ⟨hawake _ (by simp), fun hl => ?_⟩
        rw [signalEqReady]
        simp [hl]
      change if s.queueFull req.ioType = true ∧ s.signalEqReady.ssd ≠ .lowerFlag req.ioType then
        Cleared g newPage s.enqueued s.device ∧ Full req s.device
        else Roomy g newPage s.enqueued req s.device
      simpa only [hiff] using hprogress
    · have hapart := h.apart
      dsimp only [signalEqReady]
      split
      · rfl
      · exact hapart
  | lockEq hhost _ =>
    simp only [Progress, hhost] at hprogress
    refine h.hostMove_elsewhere hmoved (by rw [hhost]; rfl) rfl rfl (.inl rfl) hprogress ?_
    simpa [hhost, HostPc.pending] using horder
  | enqueueIo hhost _ hrun =>
    simp only [Progress, hhost] at hprogress
    refine h.hostMove_elsewhere hmoved (by rw [hhost]; rfl) rfl rfl (.inl rfl)
      (hprogress.served hrun) ?_
    simpa [hhost, HostPc.pending] using horder
  | unlockEq _ hmode => cases hmode
  | finish hhost _ =>
    simp only [Progress, hhost] at hprogress
    refine h.hostMove_elsewhere hmoved (by rw [hhost]; rfl) rfl rfl (.inl rfl) hprogress ?_
    simpa [hhost, HostPc.pending] using horder
  | signalReady hhost =>
    simp only [Progress, hhost] at hprogress
    refine h.hostMove_elsewhere hmoved (by rw [hhost]; rfl) rfl rfl ?_ hprogress ?_
    · by_cases hasleep : s.ssd = .asleep
      · exact .inr (by simp [signalEqReady, hasleep])
      · exact .inl (by simp [signalEqReady, hasleep])
    · simpa [hhost, HostPc.pending, signalEqReady] using horder

/-- The host thread in the loop on a flag. -/
private theorem awaits_iff {ioType : IoType} : s.host.awaits = some ioType ↔
    ∃ req, req.ioType = ioType ∧
      (s.host = .serving req .testFlag ∨ s.host = .serving req .signalFull) := by
  refine ⟨fun h => ?_, ?_⟩
  · cases hhost : s.host with
    | idle => simp [hhost, HostPc.awaits] at h
    | serving req stmt => cases stmt <;> simp_all [HostPc.awaits]
  · rintro ⟨req, rfl, hhost | hhost⟩ <;> rw [hhost] <;> rfl

private theorem progress_awaits
    (hhost : s.host = .serving req .testFlag ∨ s.host = .serving req .signalFull) :
    Progress g newPage s ↔
      if s.queueFull req.ioType = true ∧ s.ssd ≠ .lowerFlag req.ioType then
        Cleared g newPage s.enqueued s.device ∧ Full req s.device
      else Roomy g newPage s.enqueued req s.device := by
  rcases hhost with hhost | hhost <;> simp only [Progress, hhost]

/-- The SSD thread goes on without touching the device or a flag. -/
theorem ssdMove_elsewhere (h : Handshake g newPage reqs s) {eqLock : Option ThreadId}
    {ssd : SsdStmt} (hlocks : Locks { s with eqLock, ssd })
    (hbody : ssd = .body → s.rQueueFull = true ∨ s.wQueueFull = true)
    (hbefore : ∀ ioType, s.ssd ≠ .lowerFlag ioType) (hafter : ∀ ioType, ssd ≠ .lowerFlag ioType)
    (hapart : ssd.inDequeueIo = false) :
    Handshake g newPage reqs { s with eqLock, ssd } where
  locks := hlocks
  progress := by
    have hprogress := h.progress
    simp only [Progress, hbefore, ne_eq, not_false_eq_true, and_true] at hprogress
    simp only [Progress, hafter, ne_eq, not_false_eq_true, and_true]
    exact hprogress
  flag := h.flag
  body := hbody
  lower ioType hl := absurd hl (hafter ioType)
  apart := hapart
  order := h.order

/-- The SSD thread empties a buffer, for the host thread that waits for it. -/
private theorem secure (h : Handshake g newPage reqs s) {ioType : IoType} {device : Device b}
    (hssd : s.ssd = .body) (hflag : s.queueFull ioType = true)
    (hrun : s.device.secureBuffer g newPage ioType = .ok device)
    (hmove : SsdMove g newPage .mode2 s { s with device, ssd := .lowerFlag ioType }) :
    Handshake g newPage reqs { s with device, ssd := .lowerFlag ioType } := by
  obtain ⟨req, rfl, hhost⟩ := awaits_iff.mp (h.flag ioType hflag)
  have hprogress := (progress_awaits hhost).mp h.progress
  rw [if_pos ⟨hflag, by simp [hssd]⟩] at hprogress
  refine
    { locks := h.locks.ssdMove hmove
      progress := (progress_awaits (s := { s with device, ssd := _ }) hhost).mpr ?_
      flag := h.flag
      body := fun hb => by cases hb
      lower := fun ioType hl => by cases hl; exact hflag
      apart := rfl
      order := h.order }
  rw [if_neg (by simp)]
  exact ⟨s.device, hprogress.1, .inl ⟨hprogress.2, hrun⟩⟩

/-- A turn of the SSD thread. -/
private theorem ssdMove (h : Handshake g newPage reqs s) (hmove : SsdMove g newPage .mode2 s s') :
    Handshake g newPage reqs s' := by
  have hmoved := hmove
  have hapart := h.apart
  cases hmove with
  | lockEq hssd _ =>
    refine h.ssdMove_elsewhere (h.locks.ssdMove hmoved) (by simp) (fun ioType => ?_) (by simp) rfl
    rcases hssd with hssd | hssd <;> simp [hssd]
  | sleep hssd _ =>
    exact h.ssdMove_elsewhere (h.locks.ssdMove hmoved) (by simp) (by simp [hssd]) (by simp) rfl
  | work hssd hidle =>
    refine h.ssdMove_elsewhere (h.locks.ssdMove hmoved) (fun _ => ?_) (by simp [hssd]) (by simp) rfl
    rw [nothingToDo] at hidle
    by_contra hoff
    simp_all
  | noEvent _ hmode => cases hmode
  | takeEvent _ hmode => cases hmode
  | secureRead hssd _ hflag hrun => exact h.secure hssd hflag hrun hmoved
  | secureWrite hssd _ _ hflag hrun => exact h.secure hssd hflag hrun hmoved
  | wrongSignal hssd _ hread hwrite =>
    rcases h.body hssd with hf | hf
    · exact absurd (hread.symm.trans hf) (by simp)
    · exact absurd (hwrite.symm.trans hf) (by simp)
  | lockCq hssd _ | complete hssd _ | unlockCq hssd =>
    rw [hssd] at hapart
    cases hapart
  | @lowerFlag ioType hssd =>
    obtain ⟨req, rfl, hhost⟩ := awaits_iff.mp (h.flag ioType (h.lower ioType hssd))
    have hprogress := (progress_awaits hhost).mp h.progress
    rw [if_neg (by simp [hssd])] at hprogress
    refine
      { locks := h.locks.ssdMove hmoved
        progress := (progress_awaits
          (s := { s.setQueueFull req.ioType false with ssd := .unlockEq }) hhost).mpr ?_
        flag := fun ioType hf => ?_
        body := fun hb => by cases hb
        lower := fun ioType hl => by cases hl
        apart := rfl
        order := h.order }
    · rw [if_neg]
      · exact hprogress
      · rintro ⟨hf, -⟩
        cases req <;> cases hf
    · rcases queueFull_setQueueFull hf with ⟨-, hv⟩ | hf
      · cases hv
      · exact h.flag ioType hf
  | unlockEq hssd =>
    exact h.ssdMove_elsewhere (h.locks.ssdMove hmoved) (by simp) (by simp [hssd]) (by simp) rfl

private theorem step {t : Turn} (h : Handshake g newPage reqs s)
    (hstep : Step g newPage .mode2 s t s') : Handshake g newPage reqs s' := by
  have hlocks := h.locks.step hstep
  rcases hstep.move with hmove | hmove | ⟨hssd, rfl⟩
  · exact h.hostMove hmove
  · exact h.ssdMove hmove
  · exact h.ssdMove_elsewhere hlocks (by simp) (by simp [hssd]) (by simp) rfl

/-- Every schedule keeps to the handshake. -/
private theorem reachable (h : Reachable g newPage .mode2 reqs s) : Handshake g newPage reqs s := by
  obtain ⟨ts, htrace⟩ := h
  exact htrace.invariant (fun _ _ _ => step) (start b reqs)

end Handshake

/-- **Refinement.** With `SSD_THREAD_MODE_2` the host thread, whenever it has served a request, finds
the device as the build without the thread leaves it after the same requests. -/
theorem mode2_refines {s : Threads b} (h : Reachable g newPage .mode2 reqs s)
    (hidle : s.host = .idle) :
    s.enqueued ++ s.todo = reqs ∧
      (initIoBuffer b).serveAll g newPage s.enqueued = .ok s.device := by
  have hshake := Handshake.reachable h
  have horder := hshake.order
  have hprogress := hshake.progress
  simp only [hidle, HostPc.pending, List.nil_append] at horder
  simp only [Progress, hidle] at hprogress
  exact ⟨horder, hprogress⟩

/-- The SSD thread goes to sleep, the host thread fills the write buffer, wakes the SSD thread and
waits for it. -/
def fullTurns : List Turn :=
  [.ssd, .ssd] ++ List.replicate 8 .host ++ List.replicate 8 .host ++ List.replicate 4 .ssd ++
    [.host, .ssd, .host, .host, .host]

/-- The turns of a schedule lead to a state with a property that is tested. -/
theorem reachable_of_play (g : Geometry) (newPage : ℕ → Ret) (mode : ThreadMode)
    (reqs : List Request) (ts : List Turn) (P : Threads b → Bool)
    (h : ((start b reqs).play g newPage mode ts).any P = true) :
    ∃ s, Reachable g newPage mode reqs s ∧ P s = true := by
  obtain ⟨s, hplay, hP⟩ := (Option.any_eq_true _ _).mp h
  exact ⟨s, ⟨ts, trace_of_play hplay⟩, hP⟩

theorem mode2_refines_fullTurns : ∃ s : Threads smallBuffers,
    Reachable smallDevice (fun _ => .success) .mode2 [.write 0 6, .write 6 4] s ∧
    s.enqueued ++ s.todo = [.write 0 6, .write 6 4] ∧
    (initIoBuffer smallBuffers).serveAll smallDevice (fun _ => .success) s.enqueued =
      .ok s.device := by
  obtain ⟨s, hs, htest⟩ := reachable_of_play smallDevice (fun _ => .success) .mode2
    [.write 0 6, .write 6 4] fullTurns (fun s : Threads smallBuffers => s.host == .idle)
    (by decide +kernel)
  exact ⟨s, hs, mode2_refines hs (by simpa using htest)⟩

end Threads

/-! ### Progress -/

/-- How far the host thread is from the end of its request. -/
def HostPc.rest : HostPc → ℕ
  | .idle => 0
  | .serving _ stmt =>
    match stmt with
    | .lockCq => 9
    | .dequeueCompletedRead => 8
    | .unlockCq => 7
    | .testFull => 6
    | .raiseFlag => 5
    | .testFlag | .signalFull => 4
    | .lockEq => 3
    | .enqueueIo => 2
    | .unlockEq | .signalReady => 1

/-- How far the SSD thread is from lowering a flag that is set. -/
def SsdStmt.untilLowered : SsdStmt → ℕ
  | .asleep => 8
  | .unlockEq => 7
  | .lockEq | .awake => 6
  | .test => 5
  | .body => 4
  | .lowerFlag _ => 3
  | _ => 0

namespace Threads

/-- What the host thread waits for at the statement it has come to. -/
def wait (s : Threads b) : ℕ :=
  match s.host with
  | .serving req .testFlag => if s.queueFull req.ioType = true then s.ssd.untilLowered + 1 else 0
  | .serving req .signalFull => if s.queueFull req.ioType = true then s.ssd.untilLowered else 1
  | .serving _ .lockEq => if s.eqLock = none then 0 else 1
  | _ => 0

/-- A bound on the turns until the host thread has served all its requests. -/
def dist (s : Threads b) : ℕ := 200 * s.todo.length + 20 * s.host.rest + s.wait

section

variable {s s' : Threads b}

private theorem wait_testFlag (hhost : s.host = .serving req .testFlag)
    (hflag : s.queueFull req.ioType = true) : s.wait = s.ssd.untilLowered + 1 := by
  simp only [wait, hhost, hflag, if_true]

private theorem wait_signalFull (hhost : s.host = .serving req .signalFull)
    (hflag : s.queueFull req.ioType = true) : s.wait = s.ssd.untilLowered := by
  simp only [wait, hhost, hflag, if_true]

private theorem wait_testFlag_lowered (hhost : s.host = .serving req .testFlag)
    (hflag : s.queueFull req.ioType = false) : s.wait = 0 := by
  simp [wait, hhost, hflag]

private theorem wait_signalFull_lowered (hhost : s.host = .serving req .signalFull)
    (hflag : s.queueFull req.ioType = false) : s.wait = 1 := by
  simp [wait, hhost, hflag]

private theorem wait_lockEq (hhost : s.host = .serving req .lockEq) : s.wait =
    if s.eqLock = none then 0 else 1 := by
  simp only [wait, hhost]

private theorem wait_le : s.wait ≤ 9 := by
  have hlow : s.ssd.untilLowered ≤ 8 := by cases s.ssd <;> simp [SsdStmt.untilLowered]
  rw [wait]
  split
  all_goals try split
  all_goals omega

/-- The host thread goes on. -/
private theorem dist_lt_of_rest (htodo : s'.todo = s.todo) (hrest : s'.host.rest < s.host.rest) :
    s'.dist < s.dist := by
  have hwait := wait_le (s := s')
  rw [dist, dist, htodo]
  omega

/-- The host thread comes closer to going on. -/
private theorem dist_lt_of_wait (htodo : s'.todo = s.todo) (hrest : s'.host.rest = s.host.rest)
    (hwait : s'.wait < s.wait) : s'.dist < s.dist := by
  rw [dist, dist, htodo, hrest]
  omega

end

namespace Handshake

variable {s s' : Threads b}

private theorem ssd_cq (h : Handshake g newPage reqs s) : s.ssd.holdsCq = false := by
  have hapart := h.apart
  cases hssd : s.ssd <;> simp_all [SsdStmt.inDequeueIo, SsdStmt.holdsCq]

/-- The request that the host thread serves can be served to the end. -/
private theorem served_next (h : Handshake g newPage reqs s) (hall : Served g newPage reqs d)
    (hpending : s.host.pending = [req]) :
    ∃ d' : Device b, Served g newPage (s.enqueued ++ [req]) d' := by
  have horder := h.order
  rw [hpending, ← List.append_assoc] at horder
  rw [← horder] at hall
  exact served_prefix hall

/-- While the host thread waits for its flag, the SSD thread comes closer to lowering it, unless it is
asleep. -/
private theorem ssd_closer (h : Handshake g newPage reqs s) (hall : Served g newPage reqs d)
    (hhost : s.host = .serving req .testFlag ∨ s.host = .serving req .signalFull)
    (hflag : s.queueFull req.ioType = true) (hasleep : s.ssd ≠ .asleep) :
    ∃ s', Step g newPage .mode2 s .ssd s' ∧ s'.host = s.host ∧ s'.todo = s.todo ∧
      (s'.queueFull req.ioType = true ∧ s'.ssd.untilLowered < s.ssd.untilLowered ∨
        s'.queueFull req.ioType = false ∧ 2 < s.ssd.untilLowered) := by
  have hapart := h.apart
  have hhostEq : s.host.holdsEq = false := by rcases hhost with hhost | hhost <;> rw [hhost] <;> rfl
  have hhostCq : s.host.holdsCq = false := by rcases hhost with hhost | hhost <;> rw [hhost] <;> rfl
  have hcq := h.locks.cqLock_free hhostCq h.ssd_cq
  have honly : ∀ ioType, s.queueFull ioType = true → ioType = req.ioType := by
    intro ioType hf
    have h₁ := h.flag ioType hf
    have h₂ := h.flag req.ioType hflag
    exact Option.some.inj (h₁.symm.trans h₂)
  cases hssd : s.ssd with
  | lockEq | awake =>
    have heq := h.locks.eqLock_free hhostEq (by rw [hssd]; rfl)
    refine ⟨{ s with eqLock := some .ssd, ssd := .test }, ?_, rfl, rfl,
      .inl ⟨hflag, by simp [SsdStmt.untilLowered]⟩⟩
    simp [Step, turn, ssdStep, hssd, heq]
  | test =>
    refine ⟨{ s with ssd := .body }, ?_, rfl, rfl, .inl ⟨hflag, by simp [SsdStmt.untilLowered]⟩⟩
    have hidle : s.nothingToDo .mode2 = false := by
      cases req with
      | write => simp_all [nothingToDo, queueFull, Request.ioType]
      | read => simp_all [nothingToDo, queueFull, Request.ioType]
    simp [Step, turn, ssdStep, hssd, hidle]
  | asleep => exact absurd hssd hasleep
  | body =>
    have hprogress := (progress_awaits hhost).mp h.progress
    rw [if_pos ⟨hflag, by simp [hssd]⟩] at hprogress
    have hpending : s.host.pending = [req] := by
      rcases hhost with hhost | hhost <;> rw [hhost] <;> rfl
    obtain ⟨d', hnext⟩ := h.served_next hall hpending
    obtain ⟨device, hrun⟩ := (serves_parts hnext).2.1 s.device hprogress.1 hprogress.2
    refine ⟨{ s with device, ssd := .lowerFlag req.ioType }, ?_, rfl, rfl,
      .inl ⟨hflag, by simp [SsdStmt.untilLowered]⟩⟩
    cases req with
    | write =>
      have hread : s.rQueueFull = false := by
        by_contra hf
        cases honly .read (by simpa [queueFull] using hf)
      simp_all [Step, turn, ssdStep, queueFull, Request.ioType, Except.map]
    | read => simp_all [Step, turn, ssdStep, queueFull, Request.ioType, Except.map]
  | lockCq | complete | unlockCq =>
    rw [hssd] at hapart
    cases hapart
  | lowerFlag ioType =>
    cases honly ioType (h.lower ioType hssd)
    refine ⟨{ s.setQueueFull req.ioType false with ssd := .unlockEq }, ?_, rfl, rfl,
      .inr ⟨?_, by simp [SsdStmt.untilLowered]⟩⟩
    · simp [Step, turn, ssdStep, hssd]
    · cases req <;> rfl
  | unlockEq =>
    refine ⟨{ s with eqLock := none, ssd := .lockEq }, ?_, rfl, rfl,
      .inl ⟨hflag, by simp [SsdStmt.untilLowered]⟩⟩
    simp [Step, turn, ssdStep, hssd]

/-- The wait for the flag gets shorter: the SSD thread goes on, or it is asleep and the host thread
wakes it. -/
private theorem flag_closer (h : Handshake g newPage reqs s) (hall : Served g newPage reqs d)
    (hhost : s.host = .serving req .testFlag ∨ s.host = .serving req .signalFull)
    (hflag : s.queueFull req.ioType = true) :
    ∃ t s', t ≠ .wakeup ∧ Step g newPage .mode2 s t s' ∧ s'.dist < s.dist := by
  by_cases hasleep : s.ssd = .asleep
  · rcases hhost with hhost | hhost
    · refine ⟨.host, { s with host := .serving req .signalFull }, by simp, ?_, ?_⟩
      · simp [Step, turn, hostStep, hhost, hflag]
      · refine dist_lt_of_wait rfl (by rw [hhost]; rfl) ?_
        rw [wait_testFlag hhost hflag]
        exact (wait_signalFull (s := { s with host := _ }) rfl hflag).trans_lt (Nat.lt_succ_self _)
    · refine ⟨.host, { s.signalEqReady with host := .serving req .testFlag }, by simp, ?_, ?_⟩
      · simp [Step, turn, hostStep, hhost]
      · refine dist_lt_of_wait rfl (by rw [hhost]; rfl) ?_
        rw [wait_signalFull hhost hflag]
        refine (wait_testFlag (s := { s.signalEqReady with host := _ }) rfl hflag).trans_lt ?_
        simp [signalEqReady, hasleep, SsdStmt.untilLowered]
  · obtain ⟨s', hstep, hhost', htodo, hcloser⟩ := h.ssd_closer hall hhost hflag hasleep
    refine ⟨.ssd, s', by simp, hstep, dist_lt_of_wait htodo (by rw [hhost']) ?_⟩
    rcases hhost with hhost | hhost
    · rw [wait_testFlag hhost hflag]
      rcases hcloser with ⟨hflag', hlt⟩ | ⟨hflag', hlt⟩
      · rw [wait_testFlag (hhost'.trans hhost) hflag']
        omega
      · rw [wait_testFlag_lowered (hhost'.trans hhost) hflag']
        omega
    · rw [wait_signalFull hhost hflag]
      rcases hcloser with ⟨hflag', hlt⟩ | ⟨hflag', hlt⟩
      · rw [wait_signalFull (hhost'.trans hhost) hflag']
        exact hlt
      · rw [wait_signalFull_lowered (hhost'.trans hhost) hflag']
        omega

/-- While the host thread waits for `eq_lock`, the SSD thread gives it back: no flag is set, so it
has nothing else to do. -/
private theorem eqLock_closer (h : Handshake g newPage reqs s)
    (hhost : s.host = .serving req .lockEq) (hheld : s.eqLock ≠ none) :
    ∃ s', Step g newPage .mode2 s .ssd s' ∧ s'.host = s.host ∧ s'.todo = s.todo ∧
      s'.eqLock = none := by
  have hapart := h.apart
  have hoff := h.noFlag (by rw [hhost]; rfl)
  have hread : s.rQueueFull = false := hoff .read
  have hwrite : s.wQueueFull = false := hoff .write
  cases hssd : s.ssd with
  | lockEq | awake | asleep =>
    exact absurd (h.locks.eqLock_free (by rw [hhost]; rfl) (by rw [hssd]; rfl)) hheld
  | test =>
    refine ⟨{ s with eqLock := none, ssd := .asleep }, ?_, rfl, rfl, rfl⟩
    simp [Step, turn, ssdStep, hssd, nothingToDo, hread, hwrite]
  | body => simpa [hread, hwrite] using h.body hssd
  | lockCq | complete | unlockCq =>
    rw [hssd] at hapart
    cases hapart
  | lowerFlag ioType => simpa [hoff] using h.lower ioType hssd
  | unlockEq =>
    refine ⟨{ s with eqLock := none, ssd := .lockEq }, ?_, rfl, rfl, rfl⟩
    simp [Step, turn, ssdStep, hssd]

/-- Some thread can always take a turn that brings the requests closer to their end, without a
wake-up that nobody signals. -/
private theorem closer (h : Handshake g newPage reqs s) (hall : Served g newPage reqs d)
    (hunfinished : ¬ (s.host = .idle ∧ s.todo = [])) :
    ∃ t s', t ≠ .wakeup ∧ Step g newPage .mode2 s t s' ∧ s'.dist < s.dist := by
  have hprogress := h.progress
  cases hhost : s.host with
  | idle =>
    cases htodo : s.todo with
    | nil => exact absurd ⟨hhost, htodo⟩ hunfinished
    | cons req todo =>
      refine ⟨.host, { s with host := .serving req .lockCq, todo }, by simp, ?_, ?_⟩
      · simp [Step, turn, hostStep, hhost, htodo]
      · simp only [dist, wait, HostPc.rest, hhost, htodo, List.length_cons]
        omega
  | serving req stmt =>
    simp only [Progress, hhost] at hprogress
    -- a turn of the host thread that its request has been waiting for
    have hgo : ∀ s', s'.todo = s.todo → s'.host.rest < (HostPc.serving req stmt).rest →
        Step g newPage .mode2 s .host s' →
        ∃ t s', t ≠ .wakeup ∧ Step g newPage .mode2 s t s' ∧ s'.dist < s.dist := by
      intro s' htodo hrest hstep
      exact ⟨.host, s', by simp, hstep, dist_lt_of_rest htodo (hhost ▸ hrest)⟩
    have hfree : (HostPc.serving req stmt).holdsCq = false → s.cqLock = none := by
      intro hcq
      exact h.locks.cqLock_free (hhost ▸ hcq) h.ssd_cq
    have hparts : (HostPc.serving req stmt).pending = [req] →
        ∃ d' : Device b, Served g newPage (s.enqueued ++ [req]) d' := by
      intro hpending
      exact h.served_next hall (hhost ▸ hpending)
    cases stmt with
    | lockCq =>
      refine hgo { s with cqLock := some .host, host := .serving req .dequeueCompletedRead } rfl
        (by simp [HostPc.rest]) ?_
      simp [Step, turn, hostStep, hhost, hfree rfl]
    | dequeueCompletedRead =>
      obtain ⟨d', hnext⟩ := hparts rfl
      obtain ⟨device, hrun⟩ := (serves_parts hnext).1 _ hprogress
      refine hgo { s with device, host := .serving req .unlockCq } rfl (by simp [HostPc.rest]) ?_
      simp [Step, turn, hostStep, hhost, hrun, Except.map]
    | unlockCq =>
      refine hgo { s with cqLock := none, host := .serving req .testFull } rfl
        (by simp [HostPc.rest]) ?_
      simp [Step, turn, hostStep, hhost]
    | testFull =>
      by_cases hfull : Full req s.device
      · refine hgo { s with host := .serving req .raiseFlag } rfl (by simp [HostPc.rest]) ?_
        simp [Step, turn, hostStep, hhost, hfull]
      · refine hgo { s with host := .serving req .lockEq } rfl (by simp [HostPc.rest]) ?_
        simp [Step, turn, hostStep, hhost, hfull]
    | raiseFlag =>
      refine hgo { s.setQueueFull req.ioType true with host := .serving req .testFlag } rfl
        (by simp [HostPc.rest]) ?_
      simp [Step, turn, hostStep, hhost]
    | testFlag =>
      by_cases hflag : s.queueFull req.ioType = true
      · exact h.flag_closer hall (.inl hhost) hflag
      · refine hgo { s with host := .serving req .lockEq } rfl (by simp [HostPc.rest]) ?_
        simp [Step, turn, hostStep, hhost, hflag]
    | signalFull =>
      by_cases hflag : s.queueFull req.ioType = true
      · exact h.flag_closer hall (.inr hhost) hflag
      · rw [Bool.not_eq_true] at hflag
        refine ⟨.host, { s.signalEqReady with host := .serving req .testFlag }, by simp, ?_, ?_⟩
        · simp [Step, turn, hostStep, hhost]
        · refine dist_lt_of_wait rfl (by rw [hhost]; rfl) ?_
          rw [wait_signalFull_lowered hhost hflag]
          exact (wait_testFlag_lowered (s := { s.signalEqReady with host := _ }) rfl
            hflag).trans_lt Nat.one_pos
    | lockEq =>
      by_cases hheld : s.eqLock = none
      · refine hgo { s with eqLock := some .host, host := .serving req .enqueueIo } rfl
          (by simp [HostPc.rest]) ?_
        simp [Step, turn, hostStep, hhost, hheld]
      · obtain ⟨s', hstep, hhost', htodo, hfree'⟩ := h.eqLock_closer hhost hheld
        refine ⟨.ssd, s', by simp, hstep, dist_lt_of_wait htodo (by rw [hhost']) ?_⟩
        rw [wait_lockEq (hhost'.trans hhost), wait_lockEq hhost, if_pos hfree', if_neg hheld]
        exact Nat.one_pos
    | enqueueIo =>
      obtain ⟨d', hnext⟩ := hparts rfl
      obtain ⟨device, hrun⟩ := (serves_parts hnext).2.2 _ hprogress
      refine hgo { s with
        device := device.countRequest req
        host := .serving req .unlockEq
        enqueued := s.enqueued ++ [req] } rfl (by simp [HostPc.rest]) ?_
      simp [Step, turn, hostStep, hhost, hfree rfl, hrun, Except.map]
    | unlockEq =>
      refine hgo { s with eqLock := none, host := .idle } rfl (by simp [HostPc.rest]) ?_
      simp [Step, turn, hostStep, hhost]
    | signalReady =>
      refine hgo { s.signalEqReady with host := .idle } rfl (by simp [HostPc.rest]) ?_
      simp [Step, turn, hostStep, hhost]

/-- A request that the build without the thread serves does not fault in any schedule. -/
private theorem no_fault (h : Handshake g newPage reqs s) (hall : Served g newPage reqs d)
    (t : Turn) (e : Fault) : s.turn g newPage .mode2 t ≠ some (.error e) := by
  have hprogress := h.progress
  have hapart := h.apart
  have hmap : ∀ {α : Type} {x : Except Fault α} {f : α → Threads b},
      (∃ y, x = .ok y) → some (x.map f) ≠ some (.error e) := by
    rintro α x f ⟨y, rfl⟩ heq
    cases heq
  have hparts : ∀ {req}, s.host.pending = [req] →
      ∃ d' : Device b, Served g newPage (s.enqueued ++ [req]) d' := fun hp => h.served_next hall hp
  cases t with
  | host =>
    cases hhost : s.host with
    | idle => cases htodo : s.todo <;> simp [turn, hostStep, hhost, htodo]
    | serving req stmt =>
      simp only [Progress, hhost] at hprogress
      cases stmt <;> simp only [turn, hostStep, hhost]
      case dequeueCompletedRead =>
        obtain ⟨d', hnext⟩ := hparts (by rw [hhost]; rfl)
        exact hmap ((serves_parts hnext).1 _ hprogress)
      case enqueueIo =>
        obtain ⟨d', hnext⟩ := hparts (by rw [hhost]; rfl)
        split
        · exact hmap ((serves_parts hnext).2.2 _ hprogress)
        · simp
      all_goals try split
      all_goals simp
  | ssd =>
    cases hssd : s.ssd <;> simp only [turn, ssdStep, hssd]
    case body =>
      -- the buffer of the flag that is set is the one the host thread waits for
      have hsecure : ∀ ioType, s.queueFull ioType = true →
          ∃ device, s.device.secureBuffer g newPage ioType = .ok device := by
        intro ioType hflag
        obtain ⟨req, rfl, hhost⟩ := awaits_iff.mp (h.flag ioType hflag)
        have hcleared := (progress_awaits hhost).mp hprogress
        rw [if_pos ⟨hflag, by simp [hssd]⟩] at hcleared
        have hpending : s.host.pending = [req] := by
          rcases hhost with hhost | hhost <;> rw [hhost] <;> rfl
        obtain ⟨d', hnext⟩ := hparts hpending
        exact (serves_parts hnext).2.1 _ hcleared.1 hcleared.2
      split
      · split
        · next hflag => exact hmap (hsecure .read hflag)
        · split
          · next hflag => exact hmap (hsecure .write hflag)
          · simp
      · simp
    case complete =>
      rw [hssd] at hapart
      cases hapart
    all_goals try split
    all_goals simp
  | wakeup =>
    rw [turn]
    split <;> simp

end Handshake

/-- With `SSD_THREAD_MODE_2`, if the build without the thread serves all requests, then no schedule
faults, and from wherever a schedule has got to the threads can still serve all requests, with no
wake-up but those that are signalled, and leave the device as that build does. -/
theorem mode2_completes {s : Threads b}
    (hall : (initIoBuffer b).serveAll g newPage reqs = .ok d)
    (h : Reachable g newPage .mode2 reqs s) :
    (∀ t e, s.turn g newPage .mode2 t ≠ some (.error e)) ∧
      ∃ ts s', Trace (Step g newPage .mode2) s ts s' ∧ (∀ t ∈ ts, t ≠ .wakeup) ∧
        s'.host = .idle ∧ s'.todo = [] ∧ s'.device = d := by
  have hshake := Handshake.reachable h
  refine ⟨hshake.no_fault hall, ?_⟩
  have hcloser : ∀ s : Threads b, Handshake g newPage reqs s → ¬ (s.host = .idle ∧ s.todo = []) →
      ∃ t s', t ≠ .wakeup ∧ Step g newPage .mode2 s t s' ∧ Handshake g newPage reqs s' ∧
        s'.dist < s.dist := by
    intro s hs hunfinished
    obtain ⟨t, s', ht, hstep, hlt⟩ := hs.closer hall hunfinished
    exact ⟨t, s', ht, hstep, hs.step hstep, hlt⟩
  obtain ⟨ts, s', htrace, hts, hs', hhost, htodo⟩ := Trace.reaches dist hcloser hshake
  refine ⟨ts, s', htrace, hts, hhost, htodo, ?_⟩
  have horder := hs'.order
  have hprogress := hs'.progress
  simp only [hhost, HostPc.pending, htodo, List.append_nil] at horder
  simp only [Progress, hhost, horder] at hprogress
  exact Except.ok.inj (hprogress.symm.trans hall)

/-- The host thread waits for the flag and the SSD thread is asleep. -/
theorem mode2_completes_fullTurns : ∃ (s : Threads smallBuffers) (ts : List Turn)
    (s' : Threads smallBuffers), s.host = .serving (.write 6 4) .testFlag ∧ s.ssd = .asleep ∧
    Trace (Step smallDevice (fun _ => .success) .mode2) s ts s' ∧ (∀ t ∈ ts, t ≠ .wakeup) ∧
    s'.host = .idle ∧ s'.todo = [] := by
  obtain ⟨d, hd, -⟩ := exists_ok (x := (initIoBuffer smallBuffers).serveAll smallDevice
    (fun _ => .success) [.write 0 6, .write 6 4]) (fun _ => true) (by decide +kernel)
  obtain ⟨s, hs, htest⟩ := reachable_of_play smallDevice (fun _ => .success) .mode2
    [.write 0 6, .write 6 4] (fullTurns.take 16) (fun s : Threads smallBuffers =>
      s.host == .serving (.write 6 4) .testFlag && s.ssd == .asleep) (by decide +kernel)
  simp only [Bool.and_eq_true, beq_iff_eq] at htest
  obtain ⟨-, ts, s', htrace, hts, hhost, htodo, -⟩ := mode2_completes hd hs
  exact ⟨s, ts, s', htest.1, htest.2, htrace, hts, hhost, htodo⟩

end Threads

end Vssim
