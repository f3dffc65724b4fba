import Vssim.Ftl.Run

/-!
# Read your writes

The simulator stores no data, so the data is a ghost here. `Nand` gives every physical page a
vector of sector contents and says what each call of the FTL into the SSD module does to it;
`written` is the sector array a client believes in. The main result, `run_readYourWrites`,
is that after any run whose writes succeed the page that a sector's logical page is mapped to
holds the value last written to the sector, and that a read succeeds exactly when all its
logical pages have been written.

The proof goes through the abstract store: `FlashStore.Step.holds` says that the cells of the
abstract store hold the page array, `FtlStep.nand` that the ghost NAND is those cells, and
`sectorOf_pieces` that the pages of a request cover its sectors.
-/

namespace Vssim

open FlashStore Finset

variable {α : Type} {g : Geometry} {s s' : Ftl} {σ σ' : Store}

/-! ### The ghost NAND -/

/-- The contents of a page: a value for each of its programmed sectors. -/
abbrev Slots (α : Type) := ℕ → Option α

/-- The ghost contents of the device: the pages, `none` for an erased one, and the page last
read by a collection. -/
structure Nand (α : Type) where
  cell : Page → Option (Slots α)
  reg : Option (Slots α)

/-- The erased device. -/
def Nand.blank : Nand α := ⟨fun _ => none, none⟩

/-- The sectors of `new`, over those of `old`. -/
def overlay (new old : Slots α) : Slots α := fun i => (new i).or (old i)

/-- Program a page. -/
def Nand.program (n : Nand α) (q : Page) (c : Option (Slots α)) : Nand α :=
  { n with cell := Function.update n.cell q c }

/-- What a call does to the contents. `slots k` are the sectors the host sends with page `k` of
the request being served. -/
def Nand.apply (slots : ℤ → Slots α) (n : Nand α) : Call → Nand α
  | .ssdPageWrite f b p k .write _ => n.program ((f, b), p) (some (slots k))
  | .ssdPagePartialWrite f₀ b₀ p₀ f b p k .write _ => n.program ((f, b), p)
      (some (overlay (slots k) ((n.cell ((f₀, b₀), p₀)).getD fun _ => none)))
  | .ssdPageRead f b p _ .gcRead _ => { n with reg := n.cell ((f, b), p) }
  | .ssdPageWrite f b p _ .gcWrite _ => n.program ((f, b), p) n.reg
  | .ssdBlockErase f b => { n with cell := fun q => if q.1 = (f, b) then none else n.cell q }
  | _ => n

/-- The sectors that round `c` of a request sends, with contents `data`. -/
def hostSlots (g : Geometry) (data : ℤ → α) (c : Cursor) : Slots α := fun i =>
  if c.leftSkip ≤ i ∧ i < c.leftSkip + c.sects g then some (data (c.lpn g * g.sectorsPerPage + i))
  else none

/-- The sectors sent with page `k` of a request. -/
def Request.slots (g : Geometry) (data : ℤ → α) : Request → ℤ → Slots α
  | .write sectorNb length, k =>
    hostSlots g data ((Cursor.next g)^[k.toNat] (.start g sectorNb length))
  | .read _ _, _ => fun _ => none

/-- The device after the requests `hist`, the first of them being number `i` of the run.
`payload j` are the contents request `j` writes. -/
def nandAfter (g : Geometry) (payload : ℕ → ℤ → α) : ℕ → List Served → Nand α → Nand α
  | _, [], n => n
  | i, e :: es, n => nandAfter g payload (i + 1) es
      (e.events.foldl (fun n ev => n.apply (e.request.slots g (payload i)) ev.call) n)

/-- The sector array after a request with contents `data`. -/
def Request.store (data : ℤ → α) (A : ℤ → Option α) : Request → ℤ → Option α
  | .write sectorNb length => fun sector =>
    if sectorNb ≤ sector ∧ sector < sectorNb + length then some (data sector) else A sector
  | .read _ _ => A

/-- What a client has written: the sector array after the requests `hist`. -/
def written (payload : ℕ → ℤ → α) : ℕ → List Served → (ℤ → Option α) → ℤ → Option α
  | _, [], A => A
  | i, e :: es, A => written payload (i + 1) es (e.request.store (payload i) A)

/-! ### The NAND is the cells of the abstract store -/

/-- What a host write makes of the old contents of its logical page. -/
def editPage (slots : ℤ → Slots α) (d : ℕ × Bool) (old : Option (Slots α)) : Slots α :=
  if d.2 then overlay (slots d.1) (old.getD fun _ => none) else slots d.1

private theorem Call.Silent.nand {c : Call} (h : c.Silent) (slots : ℤ → Slots α) (n : Nand α) :
    n.apply slots c = n := by
  cases c with
  | ssdPageRead f b p k type io => cases type with
    | read => rfl
    | _ => exact h.elim
  | getNewPage taken => rfl
  | ssdPageWrite => exact h.elim
  | ssdPagePartialWrite => exact h.elim
  | ssdBlockErase => exact h.elim
  | allocIoRequest => rfl
  | increaseIoRequestSeqNb => rfl
  | garbageCollection => rfl
  | error => rfl

private theorem overlay_none (x : Slots α) : overlay x (fun _ => none) = x := by
  funext i
  simp [overlay]

/-- **One step**: the events shown act on the ghost pages as the action on the cells. -/
theorem FtlStep.nand {label : Act × List Event} (hstep : FtlStep g σ label σ')
    (slots : ℤ → Slots α) (n : Nand α) :
    (label.2.foldl (fun n ev => n.apply slots ev.call) n).cell =
      cellsAfter (editPage slots) σ n.cell label.1 := by
  obtain ⟨a, es⟩ := label
  obtain ⟨hstep, hshown⟩ := hstep
  cases hstep with
  | skip =>
    have hfold : es.foldl (fun n ev => n.apply slots ev.call) n = n := by
      have hsilent : ∀ e ∈ es, e.call.Silent := fun e he => (hshown e he).1
      clear hshown
      induction es with
      | nil => rfl
      | cons e es ih =>
        rw [List.foldl_cons, (hsilent e (by simp)).nand]
        exact ih fun e' he' => hsilent e' (List.mem_cons_of_mem _ he')
    simp only [hfold, cellsAfter]
  | @program lpn β d _ _ =>
    obtain ⟨e, s, s₁, io, -, -, -, -, rfl⟩ := hshown
    obtain ⟨k, part⟩ := d
    cases part with
    | false => rfl
    | true =>
      cases hq : σ.map lpn with
      | none => simp [hostCall, Nand.apply, Nand.program, cellsAfter, editPage, Store.fetch, hq,
          overlay_none]
      | some q => simp [hostCall, Nand.apply, Nand.program, cellsAfter, editPage, Store.fetch, hq]
  | collect _ _ =>
    cases hshown
    rfl
  | @relocate lpn β q hmap _ _ _ =>
    obtain ⟨e, s, s₁, q', -, -, -, -, hmap', rfl⟩ := hshown
    simp [Nand.apply, Nand.program, cellsAfter, Store.fetch, hmap']
  | @erase β _ _ _ =>
    obtain ⟨s, -, rfl⟩ := hshown
    rfl

/-- The page array a client sees after the host pages `ws`. -/
def pageArray (slots : ℤ → Slots α) (ws : List (ℤ × ℕ × Bool)) (A : ℤ → Option (Slots α)) :
    ℤ → Option (Slots α) :=
  ws.foldl (fun A w => Function.update A w.1 (some (editPage slots w.2 (A w.1)))) A

private theorem pageArray_hostWrites (slots : ℤ → Slots α) (label : Act × List Event)
    (labels : List (Act × List Event)) (A : ℤ → Option (Slots α)) :
    pageArray slots (hostWrites (label :: labels)) A =
      pageArray slots (hostWrites labels) (arrayAfter (editPage slots) A label.1) := by
  obtain ⟨a, es⟩ := label
  cases a <;> rfl

/-- **A whole trace**: if the NAND holds the page array before, it does after. -/
theorem Sim.nand {events : List Event} {labels : List (Act × List Event)} (hσ : σ.Wf)
    (hsim : Sim g σ s' events labels σ') (slots : ℤ → Slots α) {n : Nand α}
    {A : ℤ → Option (Slots α)} (hA : ∀ l, σ.fetch n.cell l = A l) (l : ℤ) :
    σ'.fetch (events.foldl (fun n ev => n.apply slots ev.call) n).cell l =
      pageArray slots (hostWrites labels) A l := by
  obtain ⟨htrace, -, rfl⟩ := hsim
  induction htrace generalizing n A with
  | nil σ => exact hA l
  | @cons σ σ₁ σ₂ label labels hstep _ ih =>
    rw [pageArray_hostWrites, shownEvents, List.flatMap_cons, List.foldl_append]
    refine ih (hstep.1.wf hσ) fun k => ?_
    rw [hstep.nand]
    exact hstep.1.holds hσ hA k

/-! ### The sectors of a request -/

/-- The contents of a sector in a page array. -/
def sectorOf (g : Geometry) (A : ℤ → Option (Slots α)) (sector : ℤ) : Option α :=
  (A (sector / g.sectorsPerPage)).bind fun v => v (sector % g.sectorsPerPage).toNat

/-- One round of a write, sector by sector. -/
private theorem sectorOf_round {c : Cursor} (h : c.Ok g) {slots : ℤ → Slots α} {data : ℤ → α}
    {k : ℕ} (hslots : slots k = hostSlots g data c) (A : ℤ → Option (Slots α)) (sector : ℤ) :
    sectorOf g (Function.update A (c.lpn g)
        (some (editPage slots (k, c.part g) (A (c.lpn g))))) sector =
      if c.lba ≤ sector ∧ sector < c.lba + c.sects g then some (data sector)
      else sectorOf g A sector := by
  rw [if_congr (h.mem_round_iff sector) rfl rfl]
  by_cases hlpn : sector / g.sectorsPerPage = c.lpn g
  swap
  · rw [if_neg fun hin => hlpn hin.1, sectorOf, Function.update_of_ne hlpn, sectorOf]
  have hpos : (0 : ℤ) < g.sectorsPerPage := by exact_mod_cast g.sectorsPerPage_pos
  have h0 := Int.emod_nonneg sector hpos.ne'
  have h1 := Int.emod_lt_of_pos sector hpos
  have hdata : c.lpn g * g.sectorsPerPage + (sector % g.sectorsPerPage).toNat = sector := by
    rw [← hlpn, Int.toNat_of_nonneg h0, mul_comm, add_comm, Int.emod_add_mul_ediv]
  rw [sectorOf, sectorOf, hlpn, Function.update_self, Option.bind_some, editPage, hslots]
  by_cases hin : c.leftSkip ≤ (sector % g.sectorsPerPage).toNat ∧
      (sector % g.sectorsPerPage).toNat < c.leftSkip + c.sects g
  · have hval : hostSlots g data c (sector % g.sectorsPerPage).toNat = some (data sector) := by
      rw [hostSlots, if_pos hin, hdata]
    cases c.part g <;> simp only [overlay, hval, hin, and_self, if_true, Option.some_or,
      Bool.false_eq_true, if_false]
  · -- a round that leaves out sectors of its page merges with the old contents
    have hpart : c.part g = true := by
      have hskip := h.leftSkip_lt
      have hright := h.rightSkip_eq
      have hsects := h.sects_eq
      rw [Cursor.part, decide_eq_true_eq]
      omega
    cases hold : A (c.lpn g) <;> simp [hpart, overlay, hostSlots, hin]

/-- **The pages of a request cover its sectors**: the rounds from `c` on write exactly the
sectors that remain. -/
theorem sectorOf_pieces {slots : ℤ → Slots α} {data : ℤ → α} (rounds : ℕ) {c : Cursor} {k : ℕ}
    (hc : 0 < c.remain → c.Ok g) (hrounds : c.remain ≤ rounds)
    (hslots : ∀ j : ℕ, slots (k + j : ℕ) = hostSlots g data ((Cursor.next g)^[j] c))
    (A : ℤ → Option (Slots α)) (sector : ℤ) :
    sectorOf g (pageArray slots (pieces g rounds c k) A) sector =
      if c.lba ≤ sector ∧ sector < c.lba + c.remain then some (data sector)
      else sectorOf g A sector := by
  induction rounds generalizing c k A with
  | zero =>
    rw [if_neg (by omega)]
    rfl
  | succ rounds ih =>
    by_cases hpos : 0 < c.remain
    swap
    · rw [pieces, if_neg hpos, if_neg (by omega)]
      rfl
    have hok := hc hpos
    have hle := hok.sects_le
    have hsects := hok.sects_pos hpos
    have hrem := hok.next_remain
    have hnext := ih (c := c.next g) (k := k + 1) (fun h => hok.next h) (by omega)
      (fun j => by rw [← Function.iterate_succ_apply, ← hslots (j + 1), Nat.add_right_comm]; rfl)
      (Function.update A (c.lpn g) (some (editPage slots (k, c.part g) (A (c.lpn g)))))
    rw [pieces, if_pos hpos, pageArray, List.foldl_cons]
    refine hnext.trans ?_
    rw [sectorOf_round hok (show slots k = hostSlots g data c from hslots 0), hrem]
    -- the sectors of this round and of the later ones are those of the request
    by_cases hend : 0 < (c.next g).remain
    · rw [hok.next_lba hend]
      split_ifs <;> first | rfl | omega
    · split_ifs <;> first | rfl | omega

/-! ### Runs -/

/-- The request writes this sector. -/
def Request.Covers (sector : ℤ) : Request → Prop
  | .write sectorNb length => sectorNb ≤ sector ∧ sector < sectorNb + length
  | .read _ _ => False

/-- A request that is served to the end moves the page array as the client expects. -/
private theorem Serve.store {e : Served} (h : FtlInv g s σ) (hserve : Serve g s e s')
    (hok : ∀ sectorNb length, e.request = .write sectorNb length → e.ret = .success)
    (data : ℤ → α) {n : Nand α} {A : ℤ → Option (Slots α)} (hA : ∀ l, σ.fetch n.cell l = A l) :
    ∃ σ' A', FtlInv g s' σ' ∧
      (∀ l, σ'.fetch (e.events.foldl
        (fun n ev => n.apply (e.request.slots g data) ev.call) n).cell l = A' l) ∧
      sectorOf g A' = e.request.store data (sectorOf g A) ∧
      ∀ l, σ'.map l ≠ none ↔
        σ.map l ≠ none ∨ ∃ sector, e.request.Covers sector ∧ sector / g.sectorsPerPage = l := by
  obtain ⟨labels, σ', hsim, hpre, hall, -⟩ := hserve.sim h
  have hpages : hostWrites labels = e.request.pages g := by
    cases hserve with
    | write hreq hrun => exact hall (hok _ _ rfl)
    | read hreq hrun => exact List.prefix_nil.mp hpre
  refine ⟨σ', _, hsim.inv, fun l => hsim.nand h.wf _ hA l, ?_, fun l => ?_⟩
  · rw [hpages]
    cases hserve with
    | @write s' sectorNb length fuel r events hreq hrun =>
      funext sector
      exact sectorOf_pieces length (fun _ => .start hreq) le_rfl (fun j => by simp [Request.slots])
        A sector
    | read hreq hrun => rfl
  · rw [hsim.mapped, hpages]
    cases hserve with
    | @write s' sectorNb length fuel r events hreq hrun =>
      refine or_congr Iff.rfl ((mem_pieces_iff length 0 (fun _ => .start hreq) le_rfl l).trans ?_)
      exact exists_congr fun sector => and_assoc.symm
    | read hreq hrun => simp [Request.pages, Request.Covers]

/-- Requests served one after the other: the NAND holds what the client has written. -/
theorem serves_store {hist : List Served} (htrace : Trace (Serve g) s hist s')
    (h : FtlInv g s σ)
    (hok : ∀ e ∈ hist, ∀ sectorNb length, e.request = .write sectorNb length → e.ret = .success)
    (payload : ℕ → ℤ → α) (i : ℕ) {n : Nand α} {A : ℤ → Option (Slots α)}
    (hA : ∀ l, σ.fetch n.cell l = A l) :
    ∃ σ' A', FtlInv g s' σ' ∧ (∀ l, σ'.fetch (nandAfter g payload i hist n).cell l = A' l) ∧
      sectorOf g A' = written payload i hist (sectorOf g A) ∧
      ∀ l, σ'.map l ≠ none ↔ σ.map l ≠ none ∨
        ∃ e ∈ hist, ∃ sector, e.request.Covers sector ∧ sector / g.sectorsPerPage = l := by
  induction htrace generalizing σ i n A with
  | nil s => exact ⟨σ, A, h, hA, rfl, by simp⟩
  | cons hserve _ ih =>
    obtain ⟨σ₁, A₁, h₁, hA₁, hstore₁, hmap₁⟩ := hserve.store h (hok _ (by simp)) (payload i) hA
    obtain ⟨σ₂, A₂, h₂, hA₂, hstore₂, hmap₂⟩ :=
      ih h₁ (fun e he => hok e (List.mem_cons_of_mem _ he)) (i + 1) hA₁
    refine ⟨σ₂, A₂, h₂, hA₂, by rw [hstore₂, hstore₁, written], fun l => ?_⟩
    rw [hmap₂, hmap₁, List.exists_mem_cons_iff, or_assoc]

/-- A sector some write covers has a value in the client's array. -/
private theorem written_isSome (payload : ℕ → ℤ → α) {sector : ℤ} (hist : List Served) (i : ℕ)
    (A : ℤ → Option α) (h : (A sector).isSome ∨ ∃ e ∈ hist, e.request.Covers sector) :
    (written payload i hist A sector).isSome := by
  induction hist generalizing i A with
  | nil => simpa [written] using h
  | cons e es ih =>
    refine ih _ _ ?_
    obtain ⟨req, r, events⟩ := e
    rcases h with hA | ⟨e', he', hcov⟩
    · left
      cases req with
      | write sectorNb length =>
        simp only [Request.store]
        split
        · rfl
        · exact hA
      | read => exact hA
    rcases List.mem_cons.mp he' with rfl | he'
    · left
      cases req with
      | write sectorNb length =>
        have hin : sectorNb ≤ sector ∧ sector < sectorNb + length := hcov
        simp [Request.store, hin]
      | read => exact hcov.elim
    · exact .inr ⟨e', he', hcov⟩

/-- The first pass of `_FTL_READ` looks at every logical page of the request. -/
theorem checkMapped_iff (t : PageTables) (rounds : ℕ) (c : Cursor) (k : ℕ) :
    checkMapped g t rounds c = true ↔ ∀ w ∈ pieces g rounds c k, t.mappingTable w.1 ≠ -1 := by
  induction rounds generalizing c k with
  | zero => simp [checkMapped, pieces]
  | succ rounds ih =>
    rw [checkMapped, pieces]
    by_cases hpos : 0 < c.remain
    · simp only [if_pos hpos, List.forall_mem_cons, ← ih (c.next g) (k + 1)]
      by_cases hmap : t.mappingTable (c.lpn g) = -1 <;> simp [hmap]
    · simp [hpos]

theorem readPages_ret {n rounds k : ℕ} {c : Cursor} {ret : Ret} :
    (readPages g n s rounds c k ret).1 = if pieces g rounds c k = [] then ret else .success := by
  induction rounds generalizing c k ret with
  | zero => rfl
  | succ rounds ih =>
    rw [readPages, pieces]
    split
    · rw [if_neg (List.cons_ne_nil _ _)]
      exact ih.trans (ite_self _)
    · rfl

/-- `_FTL_READ` succeeds when all logical pages of the request are mapped. -/
theorem ftlRead_success_iff {sectorNb : ℤ} {length : ℕ} (hreq : InRange g sectorNb length) :
    (ftlRead g sectorNb length s).1 = .success ↔
      ∀ w ∈ requestPages g sectorNb length, s.tables.mappingTable w.1 ≠ -1 := by
  rw [ftlRead, if_neg hreq.toU32_le, requestPages, ← checkMapped_iff]
  split
  · simp only [readPages_ret, *, iff_true]
    exact if_neg (requestPages_ne_nil hreq)
  · simp [*]

/-- **Read your writes.** After any run of in-range requests whose writes succeed, the page that
a written sector's logical page is mapped to is programmed and holds the value last
written to the sector; and a read succeeds exactly when some write has touched each logical page
it reads. -/
theorem run_readYourWrites (hdvd : g.planesPerFlash ∣ g.blockNb) {hist : List Served}
    (hrun : Run g hist s)
    (hok : ∀ e ∈ hist, ∀ sectorNb length, e.request = .write sectorNb length → e.ret = .success)
    (payload : ℕ → ℤ → α) :
    (∀ sector, (∃ e ∈ hist, e.request.Covers sector) →
      let ppn := s.tables.mappingTable (sector / g.sectorsPerPage)
      ppn ≠ -1 ∧ ∃ page v, (nandAfter g payload 0 hist .blank).cell (g.pageOf ppn) = some page ∧
        page (sector % g.sectorsPerPage).toNat = some v ∧
        written payload 0 hist (fun _ => none) sector = some v) ∧
    ∀ sectorNb length, InRange g sectorNb length →
      ((ftlRead g sectorNb length s).1 = .success ↔
        ∀ sector, sectorNb ≤ sector → sector < sectorNb + length →
          ∃ e ∈ hist, ∃ sector', e.request.Covers sector' ∧
            sector' / g.sectorsPerPage = sector / g.sectorsPerPage) := by
  have hblank : ∀ l, emptyStore.fetch (Nand.blank : Nand α).cell l = (fun _ => none) l :=
    fun _ => rfl
  obtain ⟨σ, A, h, hA, hstore, hmap⟩ := serves_store hrun (ftlInit_inv hdvd) hok payload 0 hblank
  refine ⟨fun sector hcov => ?_, fun sectorNb length hreq => ?_⟩
  · obtain ⟨v, hv⟩ := Option.isSome_iff_exists.mp
      (written_isSome payload hist 0 (fun _ => none) (.inr hcov))
    have hsector : sectorOf g A sector = some v := by
      rw [hstore]
      exact hv
    obtain ⟨page, hpage, hslot⟩ := Option.bind_eq_some_iff.mp hsector
    obtain ⟨q, hq, hcell⟩ := Option.bind_eq_some_iff.mp ((hA _).trans hpage)
    obtain ⟨hisPage, -, -, hppn, -⟩ := h.tables.mapped _ q hq
    refine ⟨?_, page, v, ?_, hslot, hv⟩
    · rw [hppn]
      exact Geometry.ppnOf_ne_neg_one q
    · rw [hppn, Geometry.pageOf_ppnOf hisPage]
      exact hcell
  · have hpages := mem_pieces_iff length 0 (fun _ => Cursor.Ok.start hreq) le_rfl
    rw [ftlRead_success_iff hreq]
    simp only [fun l => (h.tables.map_eq_none l).not, hmap, emptyStore, ne_eq, not_true_eq_false, false_or]
    constructor
    · intro hall sector h₁ h₂
      obtain ⟨w, hw, hl⟩ := (hpages _).mpr ⟨sector, h₁, h₂, rfl⟩
      exact hl ▸ hall w hw
    · intro hall w hw
      obtain ⟨sector, h₁, h₂, hl⟩ := (hpages w.1).mp ⟨w, hw, rfl⟩
      exact hl ▸ hall sector h₁ h₂

/-- The run of the small device, each sector written with its request and its number. -/
theorem run_readYourWrites_smallDevice : ∃ hist s, Run smallDevice hist s ∧
    (∃ e ∈ eventLog hist, e.call = .ssdBlockErase 0 0) ∧
    ∀ sector, (∃ e ∈ hist, e.request.Covers sector) → ∃ page v,
      (nandAfter smallDevice (fun i x => (i, x)) 0 hist .blank).cell
        (smallDevice.pageOf (s.tables.mappingTable (sector / 2))) = some page ∧
      page (sector % 2).toNat = some v ∧
      written (fun i x => (i, x)) 0 hist (fun _ => none) sector = some v := by
  obtain ⟨hist, s, hrun, -, hret, herase⟩ := smallDevice_run
  have hok : ∀ e ∈ hist, e.ret = .success := fun e he =>
    List.eq_of_mem_replicate (hret ▸ List.mem_map_of_mem he)
  refine ⟨hist, s, hrun, herase, fun sector hcov => ?_⟩
  exact ((run_readYourWrites (by decide) hrun (fun e he _ _ _ => hok e he)
    fun i x => (i, x)).1 sector hcov).2

end Vssim
