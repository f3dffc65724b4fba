import Vssim.Io.Lifecycle

/-!
# The calls of `UPDATE_IO_REQUEST`

For every function of the I/O manager, the calls of `UPDATE_IO_REQUEST` it makes, in order, each
with its arguments and with the list of outstanding requests that it finds. The lists are
computed beside the functions; `Made` says that they are complete: between two of these calls
a function leaves the requests alone (`call_other_made`, `call_host_made`).
-/

namespace Vssim

open LinkedHeap

/-- A call of `UPDATE_IO_REQUEST` on behalf of a register. -/
structure Update where
  type : UpdateType
  reg : ℕ
  requestNb : ℤ
  offset : ℤ
  requests : RequestList

namespace Io

variable (g : Geometry) (t : IoConfig) (clk : Clock)

/-- The call in `SSD_UPDATE_IO_REQUEST`. -/
def endUpdate (reg : ℕ) (s : Io) : Update :=
  ⟨.endTime, reg, (s.accessNb reg).1, (s.accessNb reg).2, s.requests⟩

/-- The call in `SSD_REG_RECORD`. -/
def startUpdate (reg : ℕ) (offset : ℤ) (s : Io) : Update :=
  ⟨.startTime, reg, toI32 s.ioRequestSeqNb, offset, s.requests⟩

def regReadUpdates (reg : ℕ) (s : Io) : List Update :=
  if s.regIoTime reg = -1 then [] else [endUpdate reg s]

def cellWriteUpdates (reg : ℕ) (s : Io) : List Update :=
  if s.cellIoTime reg = -1 then [] else [endUpdate reg s]

def regAccessUpdates (reg : ℕ) (s : Io) : List Update :=
  match s.regIoCmd reg with
  | .read => regReadUpdates reg (ssdCellReadDelay t clk reg s).2
  | .write => cellWriteUpdates reg (ssdRegWriteDelay t clk reg s).2
  | _ => []

def flashAccessUpdates (reg : ℕ) : List ℕ → Io → List Update
  | [], _ => []
  | r :: rs, s =>
    if r ≠ reg ∧ toU32 (s.accessNb r).1 = s.ioRequestSeqNb then flashAccessUpdates reg rs s
    else regAccessUpdates t clk r s ++ flashAccessUpdates reg rs (ssdRegAccess t clk r s).2

def accessUpdates (flashNb reg : ℕ) (s : Io) : List Update :=
  if t.ioParallelism then regAccessUpdates t clk reg s
  else flashAccessUpdates t clk reg
    ((List.range g.planesPerFlash).map fun i => flashNb * g.planesPerFlash + i) s

def chAccessRegUpdates (r : ℕ) (s : Io) : List Update :=
  let (now, s) := getUsec clk s
  if s.regIoTime r ≤ now ∧ s.regIoTime r ≠ -1 then
    match s.regIoCmd r with
    | .read => regReadUpdates r (ssdCellReadDelay t clk r s).2
    | _ => []
  else []

def chAccessUpdates : List ℕ → Ret × Io → List Update
  | [], _ => []
  | r :: rs, st => chAccessRegUpdates t clk r st.2 ++ chAccessUpdates rs (chAccessReg t clk r st)

def chAccessLoopUpdates (channel : ℕ) : ℕ → Io → List Update
  | 0, _ => []
  | fuel + 1, s =>
    chAccessUpdates t clk (channelRegs g t channel) (.success, s) ++
      match ssdChAccess g t clk channel s with
      | (.success, _) => []
      | (.fail, s) => chAccessLoopUpdates channel fuel s

def waitForChannelUpdates (channel : ℕ) (s : Io) : List Update :=
  chAccessLoopUpdates g t clk channel ((channelRegs g t channel).length + 1) s

def regRecordUpdates (reg : ℕ) (cmd type : IoType) (offset : ℤ) (s : Io) : List Update :=
  match cmd with
  | .write => if isHostWrite type then [startUpdate reg offset s] else []
  | .read => if type = .read then [startUpdate reg offset s] else []
  | _ => []

def finishLastPageUpdates (reg : ℕ) (offset ioPageNb : ℤ) (s : Io) : List Update :=
  if t.oDirectVssim ∧ offset = ioPageNb - 1 then regAccessUpdates t clk reg s else []

def recordWriteUpdates (reg channel : ℕ) (offset : ℤ) (type : IoType) (ioPageNb : ℤ) (ret : Bool)
    (s : Io) : List Update :=
  let s := ssdChRecord t clk channel .write offset ret s
  regRecordUpdates reg .write type offset s ++
    finishLastPageUpdates t clk reg offset ioPageNb
      (ssdCellRecord t clk reg .write (ssdRegRecord g t clk reg .write type offset channel s))

def pageWriteUpdates (flashNb blockNb : ℕ) (offset : ℤ) (type : IoType) (ioPageNb : ℤ) (s : Io) :
    List Update :=
  let channel := flashNb % t.channelNb
  let reg := regOf g flashNb blockNb
  let s := ssdChEnable t clk channel s
  let (ret, s') := access g t clk flashNb reg s
  accessUpdates g t clk flashNb reg s ++ waitForChannelUpdates g t clk channel s' ++
    recordWriteUpdates g t clk reg channel offset type ioPageNb ret
      (waitForChannel g t clk channel s')

def pagePartialWriteUpdates (oldFlashNb oldBlockNb newFlashNb newBlockNb : ℕ) (offset : ℤ)
    (type : IoType) (ioPageNb : ℤ) (s : Io) : List Update :=
  let channel := oldFlashNb % t.channelNb
  let reg := regOf g oldFlashNb oldBlockNb
  let s := ssdChEnable t clk channel s
  let (ret, s₁) := access g t clk oldFlashNb reg s
  let s₂ := ssdChRecord t clk channel .read offset ret (waitForChannel g t clk channel s₁)
  let s₃ := ssdCellRecord t clk reg .read (ssdRegRecord g t clk reg .read type offset channel s₂)
  let channel' := newFlashNb % t.channelNb
  let reg' := regOf g newFlashNb newBlockNb
  let s₄ := ssdChEnable t clk channel' (ssdRemainIoDelay t clk reg s₃)
  let (ret', s₅) := access g t clk newFlashNb reg' s₄
  accessUpdates g t clk oldFlashNb reg s ++ waitForChannelUpdates g t clk channel s₁ ++
    regRecordUpdates reg .read type offset s₂ ++ regAccessUpdates t clk reg s₃ ++
    accessUpdates g t clk newFlashNb reg' s₄ ++
    recordWriteUpdates g t clk reg' channel' offset type ioPageNb ret' s₅

def pageReadUpdates (flashNb blockNb : ℕ) (offset : ℤ) (type : IoType) (ioPageNb : ℤ) (s : Io) :
    List Update :=
  let channel := flashNb % t.channelNb
  let reg := regOf g flashNb blockNb
  let s := ssdChEnable t clk channel s
  let (ret, s') := access g t clk flashNb reg s
  let s' := ssdCellRecord t clk reg .read (ssdChRecord t clk channel .read offset ret s')
  accessUpdates g t clk flashNb reg s ++ regRecordUpdates reg .read type offset s' ++
    finishLastPageUpdates t clk reg offset ioPageNb
      (ssdRegRecord g t clk reg .read type offset channel s')

/-- The calls of `UPDATE_IO_REQUEST` in a call of the FTL. -/
def callUpdates (c : Call) (s : Io) : List Update :=
  match c with
  | .ssdPageWrite f b _ offset type n => pageWriteUpdates g t clk f b offset type n s
  | .ssdPagePartialWrite f₀ b₀ _ f b _ offset type n =>
    pagePartialWriteUpdates g t clk f₀ b₀ f b offset type n s
  | .ssdPageRead f b _ offset type n => pageReadUpdates g t clk f b offset type n s
  | .ssdBlockErase f b => accessUpdates g t clk f (regOf g f b) s
  | _ => []

end Io

open Io

/-- The requests stay as they are, and registers are at most vacated. -/
structure Leaves (s s' : Io) : Prop where
  requests : s'.requests = s.requests
  seqNb : s'.ioRequestSeqNb = s.ioRequestSeqNb
  access : ∀ reg, s'.accessNb reg = s.accessNb reg ∨ s'.Vacant reg

/-- The updates made between two states, while the pages from `k` up to `k'` of the current
request start. -/
inductive Made (g : Geometry) (t : IoConfig) (clk : Clock) :
    ℕ → Io → List Update → ℕ → Io → Prop
  | leaves {k : ℕ} {s s' : Io} (h : Leaves s s') : Made g t clk k s [] k s'
  | ended {k reg : ℕ} {s : Io} (hreg : reg < g.regNb) :
      Made g t clk k s [endUpdate reg s] k (ssdUpdateIoRequest t clk reg s)
  | started {k reg : ℕ} {s : Io} (hreg : reg < g.regNb) :
      Made g t clk k s [startUpdate reg k s] (k + 1) (recordHostPage t clk reg k s)
  | append {k k' k'' : ℕ} {s s' s'' : Io} {us us' : List Update} (h : Made g t clk k s us k' s')
      (h' : Made g t clk k' s' us' k'' s'') : Made g t clk k s (us ++ us') k'' s''

namespace Leaves

variable {s s' : Io}

private theorem refl (s : Io) : Leaves s s := ⟨rfl, rfl, fun _ => .inl rfl⟩

private theorem of_alike (h : Alike s s') : Leaves s s' :=
  ⟨h.requests, h.seqNb, fun reg => .inl (congrFun h.access reg)⟩

private theorem untie (reg : ℕ) (s : Io) : Leaves s (untie reg s) := by
  refine ⟨rfl, rfl, fun r => ?_⟩
  by_cases hr : r = reg
  · subst hr
    exact .inr (by simp [Io.untie, Vacant])
  · exact .inl (Function.update_of_ne hr ..)

end Leaves

namespace Made

variable {g : Geometry} {t : IoConfig} {clk : Clock} {k k' : ℕ} {s s' s'' : Io}
  {us : List Update}

private theorem refl (k : ℕ) (s : Io) : Made g t clk k s [] k s := leaves (.refl s)

/-- Steps that leave the requests alone, before and after. -/
private theorem after (h' : Made g t clk k s' us k' s'') (h : Leaves s s') :
    Made g t clk k s us k' s'' :=
  (leaves h).append h'

private theorem before (h : Made g t clk k s us k' s') (h' : Leaves s' s'') :
    Made g t clk k s us k' s'' := by
  have happend := h.append (leaves h')
  rwa [List.append_nil] at happend

end Made

namespace Io

variable {g : Geometry} (t : IoConfig) (clk : Clock) (k : ℕ) {s : Io} {reg : ℕ}

/-! ### Draining -/

/-- What the two delays that report the end of a page share: the delay `charged` before, and
what is reset after. -/
private theorem ended_made (hreg : reg < g.regNb) (s₁ : Io) {s₂ : Io}
    (hcharge : s₁.requests = s.requests ∧ s₁.ioRequestSeqNb = s.ioRequestSeqNb ∧
      s₁.accessNb = s.accessNb) (hreset : Leaves (ssdUpdateIoRequest t clk reg s₁) s₂) :
    Made g t clk k s [endUpdate reg s] k s₂ := by
  have hsame : endUpdate reg s = endUpdate reg s₁ := by
    rw [endUpdate, endUpdate, hcharge.1, hcharge.2.2]
  rw [hsame]
  exact (Made.ended hreg |>.after ⟨hcharge.1, hcharge.2.1, fun r => .inl
    (congrFun hcharge.2.2 r)⟩).before hreset

private theorem regReadDelay_made (hreg : reg < g.regNb) :
    Made g t clk k s (regReadUpdates reg s) k (ssdRegReadDelay t clk reg s).2 := by
  rw [regReadUpdates, ssdRegReadDelay]
  split
  · exact .refl k s
  · have hcharge := charge_alike clk reg (s.regIoTime reg) 0 t.regReadDelay .chOp s
    generalize charge clk reg (s.regIoTime reg) 0 t.regReadDelay .chOp s = d at hcharge
    exact ended_made t clk k hreg d.2 ⟨hcharge.requests, hcharge.seqNb, hcharge.access⟩
      ⟨rfl, rfl, fun _ => .inl rfl⟩

private theorem cellWriteDelay_made (hreg : reg < g.regNb) :
    Made g t clk k s (cellWriteUpdates reg s) k (ssdCellWriteDelay t clk reg s).2 := by
  rw [cellWriteUpdates, ssdCellWriteDelay]
  split
  · exact .refl k s
  · have hcharge := charge_alike clk reg (s.cellIoTime reg) (s.ioOverhead reg) t.cellProgramDelay
      .regOp s
    generalize charge clk reg (s.cellIoTime reg) (s.ioOverhead reg) t.cellProgramDelay .regOp s = d
      at hcharge
    exact ended_made t clk k hreg
      { d.2 with initDiffReg := if d.1.waited then d.1.diff else d.2.initDiffReg }
      ⟨hcharge.requests, hcharge.seqNb, hcharge.access⟩ ⟨rfl, rfl, fun _ => .inl rfl⟩

private theorem regWriteDelay_leaves (reg : ℕ) (s : Io) :
    Leaves s (ssdRegWriteDelay t clk reg s).2 := by
  rw [ssdRegWriteDelay]
  split
  · exact .refl s
  · exact ⟨rfl, rfl, fun _ => .inl rfl⟩

private theorem cellReadDelay_leaves (reg : ℕ) (s : Io) :
    Leaves s (ssdCellReadDelay t clk reg s).2 := by
  rw [ssdCellReadDelay]
  split
  · exact .refl s
  · exact ⟨rfl, rfl, fun _ => .inl rfl⟩

private theorem blockEraseDelay_leaves (reg : ℕ) (s : Io) :
    Leaves s (ssdBlockEraseDelay t clk reg s).2 := by
  rw [ssdBlockEraseDelay]
  split
  · exact .refl s
  · exact ⟨rfl, rfl, fun _ => .inl rfl⟩

private theorem regAccess_made (hreg : reg < g.regNb) :
    Made g t clk k s (regAccessUpdates t clk reg s) k (ssdRegAccess t clk reg s).2 := by
  rw [regAccessUpdates, ssdRegAccess]
  cases s.regIoCmd reg with
  | noop => exact .refl k s
  | read => exact (regReadDelay_made t clk k hreg).after (cellReadDelay_leaves t clk reg s)
  | write => exact (cellWriteDelay_made t clk k hreg).after (regWriteDelay_leaves t clk reg s)
  | erase => exact .leaves (blockEraseDelay_leaves t clk reg s)
  | _ => exact .leaves ⟨rfl, rfl, fun _ => .inl rfl⟩

private theorem flashAccessLoop_made {rs : List ℕ} (hrs : ∀ r ∈ rs, r < g.regNb) (ret : Bool) :
    Made g t clk k s (flashAccessUpdates t clk reg rs s) k
      (flashAccessLoop t clk reg rs (ret, s)).2 := by
  induction rs generalizing s ret with
  | nil => exact .refl k s
  | cons r rs ih =>
    have hrs' : ∀ r ∈ rs, r < g.regNb := fun r hr => hrs r (List.mem_cons_of_mem _ hr)
    rw [flashAccessUpdates, flashAccessLoop]
    split
    · exact ih hrs' ret
    · exact (regAccess_made t clk k (hrs r (by simp))).append (ih hrs' _)

private theorem access_made {flashNb : ℕ} (hf : flashNb < g.flashNb) (hreg : reg < g.regNb) :
    Made g t clk k s (accessUpdates g t clk flashNb reg s) k (access g t clk flashNb reg s).2 := by
  rw [accessUpdates, access]
  split
  · exact regAccess_made t clk k hreg
  · exact flashAccessLoop_made t clk k (fun r hr => chipRegs_lt hf hr) false

private theorem chAccessReg_made (hreg : reg < g.regNb) (st : Ret × Io) :
    Made g t clk k st.2 (chAccessRegUpdates t clk reg st.2) k (chAccessReg t clk reg st).2 := by
  have htick : Leaves st.2 { st.2 with tick := st.2.tick + 1 } := .of_alike (.tick st.2 _)
  by_cases hdue : st.2.regIoTime reg ≤ clk.read st.2.tick ∧ st.2.regIoTime reg ≠ -1
  · simp only [chAccessRegUpdates, chAccessReg, getUsec, hdue.1, hdue.2, ne_eq, not_false_eq_true,
      and_self, if_true]
    cases st.2.regIoCmd reg with
    | read =>
      exact ((regReadDelay_made t clk k hreg).after (cellReadDelay_leaves t clk reg _)).after htick
    | write => exact .after (.leaves (regWriteDelay_leaves t clk reg _)) htick
    | _ => exact .leaves htick
  · simp only [chAccessRegUpdates, chAccessReg, getUsec, hdue, if_false]
    exact .leaves htick

private theorem chAccess_made {rs : List ℕ} (hrs : ∀ r ∈ rs, r < g.regNb) (st : Ret × Io) :
    Made g t clk k st.2 (chAccessUpdates t clk rs st) k
      (rs.foldl (fun st r => chAccessReg t clk r st) st).2 := by
  induction rs generalizing st with
  | nil => exact .refl k st.2
  | cons r rs ih =>
    exact (chAccessReg_made t clk k (hrs r (by simp)) st).append
      (ih (fun r hr => hrs r (List.mem_cons_of_mem _ hr)) _)

private theorem chAccessLoop_made {channel : ℕ} (hc : channel < t.channelNb) (fuel : ℕ) :
    Made g t clk k s (chAccessLoopUpdates g t clk channel fuel s) k
      (chAccessLoop g t clk channel fuel s) := by
  induction fuel generalizing s with
  | zero => exact .leaves ⟨rfl, rfl, fun _ => .inl rfl⟩
  | succ fuel ih =>
    have hround := chAccess_made t clk k (fun r hr => channelRegs_lt (g := g) t hc hr)
      (Ret.success, s)
    rw [chAccessLoopUpdates, chAccessLoop]
    change Made g t clk k s _ k (ssdChAccess g t clk channel s).2 at hround
    generalize ssdChAccess g t clk channel s = st at hround
    obtain ⟨ret, s'⟩ := st
    cases ret with
    | success =>
      dsimp only
      rwa [List.append_nil]
    | fail => exact hround.append ih

private theorem waitForChannel_made {channel : ℕ} (hc : channel < t.channelNb) :
    Made g t clk k s (waitForChannelUpdates g t clk channel s) k
      (waitForChannel g t clk channel s) := chAccessLoop_made t clk k hc _

/-! ### Recording -/

private theorem cellRecord_leaves (reg : ℕ) (cmd : IoType) (s : Io) :
    Leaves s (ssdCellRecord t clk reg cmd s) := by
  cases cmd <;> exact ⟨rfl, rfl, fun _ => .inl rfl⟩

/-- A record of a host page starts the next page of the current request. -/
private theorem regRecord_host (hreg : reg < g.regNb) {cmd : IoType}
    (hcmd : cmd = .write ∨ cmd = .read) (channel : ℕ) :
    Made g t clk k s (regRecordUpdates reg cmd cmd k s) (k + 1)
      (ssdRegRecord g t clk reg cmd cmd k channel s) := by
  rcases hcmd with rfl | rfl
  · exact Made.after (.started hreg) (⟨rfl, rfl, fun _ => .inl rfl⟩ :
      Leaves s (stampWrite g t reg channel (setCommand reg .write .write s)))
  · exact Made.after (.started hreg) (⟨rfl, rfl, fun _ => .inl rfl⟩ :
      Leaves s (stampRead g t reg channel (setCommand reg .read .read s)))

/-- A record of anything else starts none. -/
private theorem regRecord_other {cmd type : IoType}
    (hcmd : cmd = .write ∧ isHostWrite type = false ∨
    cmd = .read ∧ type ≠ .read ∨ cmd = .erase) (offset : ℤ) (channel : ℕ) :
    Made g t clk k s (regRecordUpdates reg cmd type offset s) k
      (ssdRegRecord g t clk reg cmd type offset channel s) := by
  rcases hcmd with ⟨rfl, htype⟩ | ⟨rfl, htype⟩ | rfl
  · simp only [regRecordUpdates, ssdRegRecord, htype, Bool.false_eq_true, if_false]
    exact Made.after (.leaves (.untie reg _)) ⟨rfl, rfl, fun _ => .inl rfl⟩
  · simp only [regRecordUpdates, ssdRegRecord, htype, if_false]
    exact Made.after (.leaves (.untie reg _)) ⟨rfl, rfl, fun _ => .inl rfl⟩
  · exact Made.after (.leaves (.untie reg _)) ⟨rfl, rfl, fun _ => .inl rfl⟩

private theorem finishLastPage_made (hreg : reg < g.regNb) (offset ioPageNb : ℤ) :
    Made g t clk k s (finishLastPageUpdates t clk reg offset ioPageNb s) k
      (finishLastPage t clk reg offset ioPageNb s) := by
  rw [finishLastPageUpdates, finishLastPage]
  split
  · exact regAccess_made t clk k hreg
  · exact .refl k s

/-! ### The operations -/

variable {k}

/-- A write, given what the record in its register does. -/
private theorem recordWrite_made (hreg : reg < g.regNb) {k' : ℕ} {type : IoType} {offset : ℤ}
    {channel : ℕ} (ioPageNb : ℤ) (ret : Bool)
    (hrecord : ∀ s, Made g t clk k s (regRecordUpdates reg .write type offset s) k'
      (ssdRegRecord g t clk reg .write type offset channel s)) (s : Io) :
    Made g t clk k s (recordWriteUpdates g t clk reg channel offset type ioPageNb ret s) k'
      (recordWrite g t clk reg channel offset type ioPageNb ret s) :=
  (((hrecord _).after (.of_alike (ssdChRecord_alike ..))).before (cellRecord_leaves ..)).append
    (finishLastPage_made t clk k' hreg offset ioPageNb)

variable {f : ℕ} (hf : f < g.flashNb) (b : ℕ)

include hf

/-- The access of an operation to its register, and before it the switch to its channel. -/
private theorem enter_made (k : ℕ) (s : Io) :
    Made g t clk k s
      (accessUpdates g t clk f (regOf g f b) (ssdChEnable t clk (f % t.channelNb) s)) k
      (access g t clk f (regOf g f b) (ssdChEnable t clk (f % t.channelNb) s)).2 :=
  (access_made t clk k hf (regOf_lt hf b)).after (.of_alike (ssdChEnable_alike ..))

private theorem pageWrite_made {k' : ℕ} {type : IoType} {offset : ℤ} (ioPageNb : ℤ)
    (hrecord : ∀ s, Made g t clk k s (regRecordUpdates (regOf g f b) .write type offset s) k'
      (ssdRegRecord g t clk (regOf g f b) .write type offset (f % t.channelNb) s)) (s : Io) :
    Made g t clk k s (pageWriteUpdates g t clk f b offset type ioPageNb s) k'
      (ssdPageWrite g t clk f b offset type ioPageNb s) :=
  ((enter_made t clk hf b k s).append
    (waitForChannel_made t clk k (Nat.mod_lt f t.channelNb_pos))).append
    (recordWrite_made t clk (regOf_lt hf b) ioPageNb _ hrecord _)

private theorem pageRead_made {k' : ℕ} {type : IoType} {offset : ℤ} (ioPageNb : ℤ)
    (hrecord : ∀ s, Made g t clk k s (regRecordUpdates (regOf g f b) .read type offset s) k'
      (ssdRegRecord g t clk (regOf g f b) .read type offset (f % t.channelNb) s)) (s : Io) :
    Made g t clk k s (pageReadUpdates g t clk f b offset type ioPageNb s) k'
      (ssdPageRead g t clk f b offset type ioPageNb s) :=
  (((enter_made t clk hf b k s).before (.of_alike (ssdChRecord_alike ..))).before
    (cellRecord_leaves ..)).append (hrecord _) |>.append
    (finishLastPage_made t clk k' (regOf_lt hf b) offset ioPageNb)

/-- The read half of a partial write starts no page, as its type is that of a write. -/
private theorem pagePartialWrite_made {f₀ : ℕ} (hf₀ : f₀ < g.flashNb) (b₀ : ℕ) (ioPageNb : ℤ)
    (s : Io) :
    Made g t clk k s (pagePartialWriteUpdates g t clk f₀ b₀ f b k .write ioPageNb s) (k + 1)
      (ssdPagePartialWrite g t clk f₀ b₀ f b k .write ioPageNb s) := by
  have hread : ∀ s, Made g t clk k s (regRecordUpdates (regOf g f₀ b₀) .read .write k s) k
      (ssdRegRecord g t clk (regOf g f₀ b₀) .read .write k (f₀ % t.channelNb) s) := fun s =>
    regRecord_other t clk k (.inr (.inl ⟨rfl, by decide⟩)) k _
  have henter := (enter_made t clk hf₀ b₀ k s).append
    (waitForChannel_made t clk k (Nat.mod_lt f₀ t.channelNb_pos))
  have hrecord := fun ret => (henter.before (.of_alike (ssdChRecord_alike t clk (f₀ % t.channelNb)
    .read k ret))).append (hread _) |>.before (cellRecord_leaves t clk (regOf g f₀ b₀) .read _)
  have hold := fun ret => (hrecord ret).append (regAccess_made t clk k (regOf_lt hf₀ b₀))
  exact ((hold _).append (enter_made t clk hf b k _)).append (recordWrite_made t clk (regOf_lt hf b)
    ioPageNb _ (fun s => regRecord_host t clk k (regOf_lt hf b) (.inl rfl) _) _)

omit hf

/-- A call for a host page starts it. -/
theorem call_host_made {c : Call} (hc : c.IsHost g k) (s : Io) :
    Made g t clk k s (callUpdates g t clk c s) (k + 1) (Io.call g t clk c s) := by
  cases c with
  | ssdPageWrite f b p offset type n =>
    obtain ⟨hf, rfl, rfl⟩ := hc
    exact pageWrite_made t clk hf b n (fun s => regRecord_host t clk k (regOf_lt hf b) (.inl rfl) _) s
  | ssdPagePartialWrite f₀ b₀ p₀ f b p offset type n =>
    obtain ⟨hf₀, hf, rfl, rfl⟩ := hc
    exact pagePartialWrite_made t clk hf b hf₀ b₀ n s
  | ssdPageRead f b p offset type n =>
    obtain ⟨hf, rfl, rfl⟩ := hc
    exact pageRead_made t clk hf b n (fun s => regRecord_host t clk k (regOf_lt hf b) (.inr rfl) _) s
  | _ => exact hc.elim

/-- Any other call starts none. -/
theorem call_other_made {c : Call} (hc : c.IsOther g) (k : ℕ) (s : Io) :
    Made g t clk k s (callUpdates g t clk c s) k (Io.call g t clk c s) := by
  cases c with
  | ssdPageWrite f b p offset type n =>
    obtain ⟨hf, rfl⟩ := hc
    exact pageWrite_made t clk hf b n (fun s => regRecord_other t clk k (.inl ⟨rfl, rfl⟩) _ _) s
  | ssdPageRead f b p offset type n =>
    obtain ⟨hf, rfl⟩ := hc
    exact pageRead_made t clk hf b n
      (fun s => regRecord_other t clk k (.inr (.inl ⟨rfl, by decide⟩)) _ _) s
  | ssdBlockErase f b =>
    have haccess := access_made t clk k hc (regOf_lt hc b) (s := s)
    have hrecord : ∀ s, Made g t clk k s [] k
        (ssdRegRecord g t clk (regOf g f b) .erase .erase (-1) (f % t.channelNb) s) := fun s =>
      regRecord_other t clk k (.inr (.inr rfl)) (-1) _
    have hall := (haccess.append (hrecord _)).before (cellRecord_leaves t clk (regOf g f b) .erase _)
    rwa [List.append_nil] at hall
  | getNewPage _ => exact .refl k s
  | garbageCollection => exact .refl k s
  | error _ => exact .refl k s
  | allocIoRequest _ _ _ => exact hc.elim
  | increaseIoRequestSeqNb => exact hc.elim
  | ssdPagePartialWrite _ _ _ _ _ _ _ _ _ => exact hc.elim

end Io

end Vssim
