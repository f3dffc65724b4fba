import Vssim.Ftl.Request
import Vssim.Ftl.TableInv
import Vssim.Library.FlashStore

/-!
# The FTL as an out-of-place page store

`FtlInv g s σ` relates the state `s` of the FTL to a state `σ` of the abstract store of
`FlashStore`: logical pages are the lpns, blocks are pairs of a chip and a block number.
`FtlStep` labels a step of the abstract store with the events it shows; the functions of the
FTL are proved elsewhere to run through traces of such steps, so that results about their
events follow from the discipline of the abstract store alone.
-/

namespace Vssim

open FlashStore Finset

/-- The abstract store: lpns mapped to pages. -/
abbrev Store := FlashStore.Store ℤ (ℕ × ℕ)

/-- Its actions. A host write says which page of the request it is and whether it covers
only a part of the logical page. -/
abbrev Act := FlashStore.Action ℤ (ℕ × ℕ) (ℕ × Bool)

variable (g : Geometry)

/-- The FTL state `s` represents the abstract store `σ`. -/
structure FtlInv (s : Ftl) (σ : Store) : Prop where
  lists : ∃ L, ListInv g s.lists L σ.fill σ.limbo
  tables : TableInv g s.tables σ.map σ.fill σ.limbo

variable {g} in
theorem FtlInv.wf {s : Ftl} {σ : Store} (h : FtlInv g s σ) : σ.Wf :=
  fun _ _ hq => h.tables.lt_fill hq

/-- Events that neither hand out nor program nor erase a page: bookkeeping, errors and the page
reads of the host. -/
def Call.Silent : Call → Prop
  | .allocIoRequest _ _ _ | .increaseIoRequestSeqNb | .getNewPage none | .garbageCollection
  | .error _ | .ssdPageRead _ _ _ _ .read _ => True
  | _ => False

/-- The call that programs a host page: a partial write of a mapped page merges. -/
def hostCall (old : Option Page) (new : Page) (offset : ℕ) (part : Bool) (ioPageNb : ℕ) : Call :=
  match part, old with
  | true, some q => .ssdPagePartialWrite q.1.1 q.1.2 q.2 new.1.1 new.1.2 new.2 offset .write ioPageNb
  | _, _ => .ssdPageWrite new.1.1 new.1.2 new.2 offset .write ioPageNb

/-- The events an action shows when it is taken in state `σ`. -/
def Shown (σ : Store) : Act → List Event → Prop
  | .skip, events => ∀ e ∈ events, e.call.Silent ∧ FtlInv g e.ftl σ
  | .program lpn β d, events => ∃ e s s₁ n, FtlInv g s σ ∧ β ∈ g.blocks ∧ e.block = β ∧
      e.currPhyPageNb = σ.fill β ∧
      events = [⟨.getNewPage (some e), s⟩,
        ⟨hostCall (σ.map lpn) (β, σ.fill β) d.1 d.2 n, s₁⟩]
  | .collect _, events => events = []
  | .relocate lpn β, events => ∃ e s s₁ q, FtlInv g s σ ∧ β ∈ g.blocks ∧ e.block = β ∧
      e.currPhyPageNb = σ.fill β ∧ σ.map lpn = some q ∧
      events = [⟨.getNewPage (some e), s⟩, ⟨.ssdPageRead q.1.1 q.1.2 q.2 q.2 .gcRead (-1), s₁⟩,
        ⟨.ssdPageWrite β.1 β.2 (σ.fill β) q.2 .gcWrite (-1), s₁⟩]
  | .erase β, events => ∃ s, FtlInv g s σ ∧ events = [⟨.ssdBlockErase β.1 β.2, s⟩]

/-- A step of the abstract store within the device, with the events it shows. -/
def FtlStep (σ : Store) (label : Act × List Event) (σ' : Store) : Prop :=
  Step g.pageNb σ label.1 σ' ∧ Shown g σ label.1 label.2

/-- The events of a trace. -/
def shownEvents (labels : List (Act × List Event)) : List Event := labels.flatMap Prod.snd

/-- The host writes of a trace: lpn, page of the request, partial or not. -/
def hostWrites (labels : List (Act × List Event)) : List (ℤ × ℕ × Bool) :=
  labels.filterMap fun label =>
    match label.1 with
    | .program lpn _ d => some (lpn, d)
    | _ => none

@[simp] theorem shownEvents_nil : shownEvents [] = [] := rfl

@[simp] theorem shownEvents_cons (a : Act) (events : List Event)
    (labels : List (Act × List Event)) :
    shownEvents ((a, events) :: labels) = events ++ shownEvents labels := by
  simp [shownEvents]

@[simp] theorem shownEvents_append (xs ys : List (Act × List Event)) :
    shownEvents (xs ++ ys) = shownEvents xs ++ shownEvents ys := by
  simp [shownEvents]

@[simp] theorem hostWrites_nil : hostWrites [] = [] := rfl

@[simp] theorem hostWrites_append (xs ys : List (Act × List Event)) :
    hostWrites (xs ++ ys) = hostWrites xs ++ hostWrites ys := by
  simp [hostWrites]

section hostWrites

variable (events : List Event) (labels : List (Act × List Event)) (lpn : ℤ) (β : ℕ × ℕ)

@[simp] theorem hostWrites_skip : hostWrites ((.skip, events) :: labels) = hostWrites labels := rfl

@[simp] theorem hostWrites_collect :
    hostWrites ((.collect β, events) :: labels) = hostWrites labels := rfl

@[simp] theorem hostWrites_relocate :
    hostWrites ((.relocate lpn β, events) :: labels) = hostWrites labels := rfl

@[simp] theorem hostWrites_erase :
    hostWrites ((.erase β, events) :: labels) = hostWrites labels := rfl

@[simp] theorem hostWrites_program (d : ℕ × Bool) :
    hostWrites ((.program lpn β d, events) :: labels) = (lpn, d) :: hostWrites labels := rfl

end hostWrites

variable {g}

/-- A step that only shows silent events. -/
private theorem FtlStep.silent {σ : Store} {events : List Event}
    (h : ∀ e ∈ events, e.call.Silent ∧ FtlInv g e.ftl σ) : FtlStep g σ (.skip, events) σ :=
  ⟨.skip σ, h⟩

/-! ### Simulations -/

variable (g) in
/-- A run of the FTL that ends in `s'` and shows `events` follows the labelled trace from `σ`
to `σ'`. -/
structure Sim (σ : Store) (s' : Ftl) (events : List Event) (labels : List (Act × List Event))
    (σ' : Store) : Prop where
  trace : Trace (FtlStep g) σ labels σ'
  inv : FtlInv g s' σ'
  events : events = shownEvents labels

namespace Sim

variable {σ σ₁ σ₂ : Store} {s s₁ s₂ : Ftl} {ev₁ ev₂ : List Event}
  {ls₁ ls₂ : List (Act × List Event)}

theorem refl (h : FtlInv g s σ) : Sim g σ s [] [] σ := ⟨.nil σ, h, rfl⟩

theorem step {a : Act} (hstep : FtlStep g σ (a, ev₁) σ₁) (h : FtlInv g s₁ σ₁) :
    Sim g σ s₁ ev₁ [(a, ev₁)] σ₁ :=
  ⟨.single hstep, h, by simp⟩

theorem append (h₁ : Sim g σ s₁ ev₁ ls₁ σ₁) (h₂ : Sim g σ₁ s₂ ev₂ ls₂ σ₂) :
    Sim g σ s₂ (ev₁ ++ ev₂) (ls₁ ++ ls₂) σ₂ :=
  ⟨h₁.trace.append h₂.trace, h₂.inv, by rw [h₁.events, h₂.events, shownEvents_append]⟩

/-- Silent events shown in a state that represents `σ` change nothing. -/
theorem silent (hev : ∀ e ∈ ev₁, e.call.Silent ∧ FtlInv g e.ftl σ) (h : FtlInv g s σ) :
    Sim g σ s ev₁ [(.skip, ev₁)] σ :=
  .step (.silent hev) h

end Sim

/-- The logical pages mapped after a trace: those mapped before and those written. -/
theorem Sim.mapped {σ σ' : Store} {s' : Ftl} {events : List Event} {labels : List (Act × List Event)}
    (hsim : Sim g σ s' events labels σ') (l : ℤ) :
    σ'.map l ≠ none ↔ σ.map l ≠ none ∨ ∃ w ∈ hostWrites labels, w.1 = l := by
  have htrace := hsim.trace
  clear hsim
  induction htrace with
  | nil σ => simp
  | @cons σ σ₁ σ₂ label labels hstep _ ih =>
    obtain ⟨a, es⟩ := label
    refine ih.trans ?_
    obtain ⟨hstep, -⟩ := hstep
    cases hstep with
    | skip | collect | erase => rfl
    | @program k β d _ _ =>
      by_cases hl : l = k
      · simp [Store.place, hl]
      · simp [Store.place, hl, Ne.symm hl]
    | @relocate k β q hmap _ _ _ =>
      by_cases hl : l = k
      · simp [Store.place, hl, hmap]
      · simp [Store.place, hl]

/-! ### Handing out pages -/

section NewPage

variable {l l' : BlockLists} {L : ListView} {fill : ℕ × ℕ → ℕ} {limbo : Finset (ℕ × ℕ)}
  {fuel : ℕ} {taken : Option EmptyBlock}

theorem hostNewPage_spec (h : ListInv g l L fill limbo)
    (hrun : hostNewPage g fuel l = some (taken, l')) : GotPage g fill limbo l' taken := by
  rw [hostNewPage] at hrun
  split at hrun
  · exact getNewPage_spec h (show ModeOk g .noparal _ _ from rfl) hrun
  · exact getNewPage_spec h (show ModeOk g .overall _ _ from trivial) hrun

theorem gcNewPage_spec (h : ListInv g l L fill limbo) {v : VictimBlock} (hv : v.block ∈ g.blocks)
    (hrun : gcNewPage g fuel v l = some (taken, l')) : GotPage g fill limbo l' taken := by
  rw [gcNewPage] at hrun
  split at hrun
  · exact getNewPage_spec h (show ModeOk g .overall _ _ from trivial) hrun
  · exact getNewPage_spec h (show ModeOk g .inchip _ _ from g.listOf_lt hv) hrun

end NewPage

/-! ### Free pages -/

variable (g) in
/-- The number of pages that can still be handed out. -/
def freePages (σ : Store) : ℕ := ∑ β ∈ g.blocks, (g.pageNb - σ.fill β)

private theorem freePages_update {σ σ' : Store} {β : ℕ × ℕ} {n : ℕ} (hβ : β ∈ g.blocks)
    (hfill : σ'.fill = Function.update σ.fill β n) :
    freePages g σ' + (g.pageNb - σ.fill β) = freePages g σ + (g.pageNb - n) := by
  have hrest : ∑ γ ∈ g.blocks.erase β, (g.pageNb - σ'.fill γ) =
      ∑ γ ∈ g.blocks.erase β, (g.pageNb - σ.fill γ) :=
    sum_congr rfl fun γ hγ => by rw [hfill, Function.update_of_ne (ne_of_mem_erase hγ)]
  have hself : σ'.fill β = n := by rw [hfill, Function.update_self]
  rw [freePages, freePages, ← add_sum_erase _ _ hβ, ← add_sum_erase _ _ hβ, hrest, hself]
  omega

/-- Handing out a page uses up one free page. -/
theorem freePages_place {σ : Store} (lpn : ℤ) {β : ℕ × ℕ} (hβ : β ∈ g.blocks)
    (hlt : σ.fill β < g.pageNb) : freePages g σ = freePages g (σ.place lpn β) + 1 := by
  have hupd : freePages g (σ.place lpn β) + _ = _ := freePages_update hβ rfl
  omega

/-- Erasing a full block frees all its pages. -/
theorem freePages_erase {σ σ' : Store} {β : ℕ × ℕ} (hβ : β ∈ g.blocks)
    (hfull : σ.fill β = g.pageNb) (hfill : σ'.fill = Function.update σ.fill β 0) :
    freePages g σ' = freePages g σ + g.pageNb := by
  have hupd := freePages_update hβ hfill
  omega

theorem freePages_eq_zero {σ : Store} (hfull : ∀ β ∈ g.blocks, σ.fill β = g.pageNb) :
    freePages g σ = 0 :=
  sum_eq_zero fun β hβ => by rw [hfull β hβ, Nat.sub_self]

end Vssim
