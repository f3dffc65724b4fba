import Vssim.Ftl.Run

/-!
# The NAND program and erase discipline

`handedOut log β` is the list of pages of block `β` that the log has handed out since the block
was last erased, oldest first. In every run it is always `0, 1, 2, …` in this order: a page is
handed out once between two erases and the pages of a block are used in order. A block is
erased only when all its pages have been handed out and nothing is mapped into it.
-/

namespace Vssim

open FlashStore Finset

variable {g : Geometry} {s : Ftl} {σ σ' : Store}

/-- What one event does to the pages handed out. -/
def handOut (handed : ℕ × ℕ → List ℕ) (e : Event) : ℕ × ℕ → List ℕ :=
  match e.call with
  | .getNewPage (some entry) =>
    Function.update handed entry.block (handed entry.block ++ [entry.currPhyPageNb])
  | .ssdBlockErase f b => Function.update handed (f, b) []
  | _ => handed

/-- The pages handed out since the last erase, block by block and in order. -/
def handedOut (log : List Event) : ℕ × ℕ → List ℕ := log.foldl handOut fun _ => []

variable (g) in
/-- What the discipline asks of an event when `handed` has been handed out before it. -/
structure EventOk (handed : ℕ × ℕ → List ℕ) (e : Event) : Prop where
  /-- A page handed out is one of the device, is decoded to the entry it was taken from, and
  is the next page of its block. -/
  page : ∀ entry, e.call = .getNewPage (some entry) →
    0 ≤ entry.ppn g ∧ entry.ppn g < g.pageNb * g.blockNb * g.flashNb ∧
    calcFlash g (entry.ppn g) = entry.phyFlashNb ∧ calcBlock g (entry.ppn g) = entry.phyBlockNb ∧
    calcPage g (entry.ppn g) = entry.currPhyPageNb ∧
    handed entry.block = List.range entry.currPhyPageNb ∧
    entry.currPhyPageNb ∉ handed entry.block
  /-- An erased block has been handed out completely, and no lpn is mapped into it. -/
  erase : ∀ f b, e.call = .ssdBlockErase f b → handed (f, b) = List.range g.pageNb ∧
    ∀ lpn, e.ftl.tables.mappingTable lpn ≠ -1 →
      (calcFlash g (e.ftl.tables.mappingTable lpn), calcBlock g (e.ftl.tables.mappingTable lpn)) ≠
        (f, b)

variable (g) in
/-- Every event of a log keeps the discipline. -/
def Disciplined : (ℕ × ℕ → List ℕ) → List Event → Prop
  | _, [] => True
  | handed, e :: es => EventOk g handed e ∧ Disciplined (handOut handed e) es

private theorem Disciplined.append {handed : ℕ × ℕ → List ℕ} {xs ys : List Event}
    (hx : Disciplined g handed xs) (hy : Disciplined g (xs.foldl handOut handed) ys) :
    Disciplined g handed (xs ++ ys) := by
  induction xs generalizing handed with
  | nil => exact hy
  | cons x xs ih => exact ⟨hx.1, ih hx.2 hy⟩

/-- A disciplined log is disciplined at each of its events. -/
private theorem Disciplined.at {handed : ℕ × ℕ → List ℕ} {xs ys : List Event} {e : Event}
    (h : Disciplined g handed (xs ++ e :: ys)) : EventOk g (xs.foldl handOut handed) e := by
  induction xs generalizing handed with
  | nil => exact h.1
  | cons x xs ih => exact ih h.2

/-- Events that hand out and erase nothing. -/
private theorem handOut_of_quiet {handed : ℕ × ℕ → List ℕ} {e : Event}
    (hpage : ∀ entry, e.call ≠ .getNewPage (some entry)) (herase : ∀ f b, e.call ≠ .ssdBlockErase f b) :
    handOut handed e = handed ∧ EventOk g handed e := by
  refine ⟨?_, ⟨fun entry he => absurd he (hpage entry), fun f b he => absurd he (herase f b)⟩⟩
  rw [handOut]
  split
  · rename_i entry hcall
    exact absurd hcall (hpage entry)
  · rename_i f b hcall
    exact absurd hcall (herase f b)
  · rfl

private theorem Call.Silent.quiet {c : Call} (h : c.Silent) :
    (∀ entry, c ≠ .getNewPage (some entry)) ∧ ∀ f b, c ≠ .ssdBlockErase f b := by
  constructor
  · rintro entry rfl
    exact h
  · rintro f b rfl
    exact h

/-- A log of quiet events. -/
private theorem Disciplined.quiet {handed : ℕ × ℕ → List ℕ} {es : List Event}
    (h : ∀ e ∈ es, (∀ entry, e.call ≠ .getNewPage (some entry)) ∧
      ∀ f b, e.call ≠ .ssdBlockErase f b) :
    Disciplined g handed es ∧ es.foldl handOut handed = handed := by
  induction es with
  | nil => exact ⟨trivial, rfl⟩
  | cons e es ih =>
    obtain ⟨hpage, herase⟩ := h e (by simp)
    obtain ⟨hsame, hok⟩ := handOut_of_quiet (g := g) hpage herase
    obtain ⟨hrest, hfold⟩ := ih fun e' he' => h e' (List.mem_cons_of_mem _ he')
    refine ⟨⟨hok, by rw [hsame]; exact hrest⟩, ?_⟩
    rw [List.foldl_cons, hsame, hfold]

/-- `handed` lists the pages below each block's fill. -/
def HandedInOrder (handed : ℕ × ℕ → List ℕ) (fill : ℕ × ℕ → ℕ) : Prop :=
  ∀ β, handed β = List.range (fill β)

/-- Handing out the next page of a block, followed by quiet events. -/
private theorem disciplined_page {handed fill : _} (hh : HandedInOrder handed fill)
    {entry : EmptyBlock} (hβ : entry.block ∈ g.blocks) (hcurr : entry.currPhyPageNb = fill entry.block)
    (hlt : fill entry.block < g.pageNb) {es : List Event}
    (hes : ∀ e ∈ es, (∀ entry, e.call ≠ .getNewPage (some entry)) ∧
      ∀ f b, e.call ≠ .ssdBlockErase f b) :
    Disciplined g handed (⟨.getNewPage (some entry), s⟩ :: es) ∧
    HandedInOrder ((⟨.getNewPage (some entry), s⟩ :: es).foldl handOut handed)
      (Function.update fill entry.block (fill entry.block + 1)) := by
  obtain ⟨hrest, hfold⟩ := Disciplined.quiet (g := g) hes
  have hq : g.IsPage (entry.block, entry.currPhyPageNb) := ⟨hβ, hcurr ▸ hlt⟩
  have hrange : handed entry.block = List.range entry.currPhyPageNb := by rw [hh, hcurr]
  refine ⟨⟨⟨fun e he => ?_, fun f b he => (by cases he)⟩, hrest⟩, fun β => ?_⟩
  · cases he
    rw [Geometry.ppn_eq_ppnOf]
    refine ⟨Geometry.ppnOf_nonneg _, ?_, Geometry.calcFlash_ppnOf hq, Geometry.calcBlock_ppnOf hq,
      Geometry.calcPage_ppnOf hq, hrange, by simp [hrange]⟩
    have hlt := Geometry.ppnOf_lt hq
    rw [Geometry.pageMappingEntryNb] at hlt
    exact_mod_cast hlt
  · rw [List.foldl_cons, hfold, handOut]
    by_cases hβe : β = entry.block
    · simp only [hβe, Function.update_self]
      rw [hrange, hcurr, List.range_succ]
    · simp only [Function.update_of_ne hβe]
      exact hh β

private theorem hostCall_quiet {old : Option Page} {new : Page} {k n : ℕ} {part : Bool} :
    (∀ entry, hostCall old new k part n ≠ .getNewPage (some entry)) ∧
      ∀ f b, hostCall old new k part n ≠ .ssdBlockErase f b := by
  unfold hostCall
  constructor
  · intro entry
    split <;> simp
  · intro f b
    split <;> simp

/-- **One step of the store keeps the discipline.** -/
theorem FtlStep.disciplined {label : Act × List Event} (hstep : FtlStep g σ label σ')
    {handed : ℕ × ℕ → List ℕ} (hh : HandedInOrder handed σ.fill) :
    Disciplined g handed label.2 ∧ HandedInOrder (label.2.foldl handOut handed) σ'.fill := by
  obtain ⟨a, es⟩ := label
  obtain ⟨hstep, hshown⟩ := hstep
  cases hstep with
  | skip =>
    obtain ⟨hd, hfold⟩ := Disciplined.quiet (g := g) fun e he => (hshown e he).1.quiet
    exact ⟨hd, by rw [hfold]; exact hh⟩
  | @program lpn β d hβ hlt =>
    obtain ⟨entry, s, s₁, n, -, hb, rfl, hcurr, rfl⟩ := hshown
    refine disciplined_page hh hb hcurr hlt fun e he => ?_
    rw [List.mem_singleton.mp he]
    exact hostCall_quiet
  | collect _ _ =>
    cases hshown
    exact ⟨trivial, hh⟩
  | @relocate lpn β q hmap hq hβ hlt =>
    obtain ⟨entry, s, s₁, q', -, hb, rfl, hcurr, -, rfl⟩ := hshown
    refine disciplined_page hh hb hcurr hlt fun e he => ?_
    rcases List.mem_cons.mp he with rfl | he
    · exact ⟨by simp, by simp⟩
    · rw [List.mem_singleton.mp he]
      exact ⟨by simp, by simp⟩
  | @erase β hβ hfull hfree =>
    obtain ⟨s, hs, rfl⟩ := hshown
    refine ⟨⟨⟨fun e he => (by cases he), fun f b he => ?_⟩, trivial⟩, fun γ => ?_⟩
    · cases he
      refine ⟨by rw [hh, hfull], fun lpn hlpn heq => ?_⟩
      obtain ⟨q, hq⟩ := Option.ne_none_iff_exists'.mp ((hs.tables.map_eq_none lpn).not.mp hlpn)
      obtain ⟨hpage, -, -, hmap, -, -⟩ := hs.tables.mapped lpn q hq
      rw [hmap, Geometry.calcFlash_ppnOf hpage, Geometry.calcBlock_ppnOf hpage] at heq
      exact hfree lpn q hq heq
    · simp only [List.foldl_cons, List.foldl_nil, handOut]
      by_cases hγ : γ = β
      · simp [hγ]
      · rw [Function.update_of_ne hγ, Function.update_of_ne hγ]
        exact hh γ

private theorem Sim.disciplined {events : List Event} {labels : List (Act × List Event)}
    (hsim : Sim g σ s events labels σ') {handed : ℕ × ℕ → List ℕ}
    (hh : HandedInOrder handed σ.fill) :
    Disciplined g handed events ∧ HandedInOrder (events.foldl handOut handed) σ'.fill := by
  obtain ⟨htrace, -, rfl⟩ := hsim
  induction htrace generalizing handed with
  | nil => exact ⟨trivial, hh⟩
  | @cons σ σ₁ σ₂ label labels hstep _ ih =>
    obtain ⟨hd, hh₁⟩ := hstep.disciplined hh
    obtain ⟨hd', hh'⟩ := ih hh₁
    obtain ⟨a, es⟩ := label
    rw [shownEvents_cons]
    exact ⟨hd.append hd', by rw [List.foldl_append]; exact hh'⟩

/-- **The NAND discipline** at every event of every run. -/
theorem run_disciplined (hdvd : g.planesPerFlash ∣ g.blockNb) {hist : List Served}
    (hrun : Run g hist s) {pre post : List Event} {e : Event}
    (hlog : eventLog hist = pre ++ e :: post) : EventOk g (handedOut pre) e := by
  obtain ⟨labels, σ, hsim, -⟩ := Run.sim hdvd hrun
  obtain ⟨hd, -⟩ : Disciplined g (fun _ => []) (eventLog hist) ∧ _ := hsim.disciplined fun _ => rfl
  rw [hlog] at hd
  exact hd.at

/-- The first erase of `smallDevice_run`. -/
theorem run_disciplined_smallDevice : ∃ hist s pre e post, Run smallDevice hist s ∧
    eventLog hist = pre ++ e :: post ∧ e.call = .ssdBlockErase 0 0 ∧
    EventOk smallDevice (handedOut pre) e := by
  obtain ⟨hist, s, hrun, -, -, e, he, hcall⟩ := smallDevice_run
  obtain ⟨pre, post, hlog⟩ := List.append_of_mem he
  exact ⟨hist, s, pre, e, post, hrun, hlog, hcall, run_disciplined (by decide) hrun hlog⟩

end Vssim
