import Vssim.Ftl.Collect
import Vssim.Ftl.Cursor

/-!
# Host requests refine the page store

The page loop of `_FTL_WRITE` programs the logical pages of the request one after the other
(`writePages_sim`), `GC_CHECK` runs collections after it (`gcCheck_sim`), and together they make
a whole write request a trace of the abstract store (`ftlWrite_sim`).
-/

namespace Vssim

open FlashStore Finset

variable {g : Geometry} {s s' : Ftl} {σ : Store} {fuel : ℕ} {events : List Event}

/-! ### The page loop -/

variable (g) in
/-- The call that programs the page of round `c`, as the code makes it. -/
def programCall (t : PageTables) (c : Cursor) (newPpn : ℤ) (writePageNb ioPageNb : ℕ) : Call :=
  let oldPpn := t.mappingTable (c.lpn g)
  if (c.leftSkip ≠ 0 ∨ c.rightSkip g ≠ 0) ∧ oldPpn ≠ -1 then
    .ssdPagePartialWrite (calcFlash g oldPpn) (calcBlock g oldPpn) (calcPage g oldPpn)
      (calcFlash g newPpn) (calcBlock g newPpn) (calcPage g newPpn) writePageNb .write ioPageNb
  else .ssdPageWrite (calcFlash g newPpn) (calcBlock g newPpn) (calcPage g newPpn) writePageNb
    .write ioPageNb

/-- One round of the page loop. -/
theorem writePages_succ {n rounds k : ℕ} {c : Cursor} {ret : Ret} {r : Option Ret}
    (hpos : 0 < c.remain)
    (hrun : writePages g fuel n (rounds + 1) c k ret s = some (r, s', events)) :
    (r = none ∧ ∃ lists, hostNewPage g fuel s.lists = some (none, lists) ∧ s' = { s with lists } ∧
      events = [⟨.getNewPage none, s⟩, ⟨.error .ftlWriteGetNewPageFail, { s with lists }⟩]) ∨
    ∃ e lists events', hostNewPage g fuel s.lists = some (some e, lists) ∧
      writePages g fuel n rounds (c.next g) (k + 1) .success
        { s with
          lists
          tables := updateNewPageMapping g (c.lpn g) (e.ppn g)
            (updateOldPageMapping g (c.lpn g) s.tables) } = some (r, s', events') ∧
      events = [⟨.getNewPage (some e), s⟩,
        ⟨programCall g s.tables c (e.ppn g) k n, { s with lists }⟩] ++ events' := by
  rw [writePages, if_pos hpos] at hrun
  simp only [Option.bind_eq_bind, Option.bind_eq_some_iff] at hrun
  obtain ⟨⟨taken, lists⟩, hget, hrun⟩ := hrun
  cases taken with
  | none =>
    simp only [Option.some.injEq, Prod.mk.injEq] at hrun
    obtain ⟨rfl, rfl, rfl⟩ := hrun
    exact .inl ⟨rfl, lists, hget, rfl, rfl⟩
  | some e =>
    simp only [Option.bind_eq_some_iff] at hrun
    obtain ⟨⟨r₁, s₁, ev₁⟩, hloop, hrun⟩ := hrun
    simp only [Option.some.injEq, Prod.mk.injEq] at hrun
    obtain ⟨rfl, rfl, rfl⟩ := hrun
    exact .inr ⟨e, lists, ev₁, hget, hloop, rfl⟩

private theorem programCall_ne_error (t : PageTables) (c : Cursor) (newPpn : ℤ) (k n : ℕ)
    (m : ErrorMessage) : programCall g t c newPpn k n ≠ .error m := by
  simp only [programCall]
  split <;> simp

/-- On represented tables the programming call is the abstract one. -/
private theorem programCall_eq (h : FtlInv g s σ) (c : Cursor) {q : Page} (hq : g.IsPage q)
    (k n : ℕ) :
    programCall g s.tables c (g.ppnOf q) k n = hostCall (σ.map (c.lpn g)) q k (c.part g) n := by
  rw [programCall, Geometry.calcFlash_ppnOf hq, Geometry.calcBlock_ppnOf hq,
    Geometry.calcPage_ppnOf hq]
  cases hp : σ.map (c.lpn g) with
  | none =>
    rw [h.tables.unmapped _ hp]
    simp [hostCall]
  | some p =>
    obtain ⟨hpage, -, -, hmap, -, -⟩ := h.tables.mapped _ p hp
    rw [hmap, Geometry.calcFlash_ppnOf hpage, Geometry.calcBlock_ppnOf hpage,
      Geometry.calcPage_ppnOf hpage]
    by_cases hpart : c.leftSkip ≠ 0 ∨ c.rightSkip g ≠ 0
    · rw [if_pos ⟨hpart, Geometry.ppnOf_ne_neg_one p⟩, Cursor.part, decide_eq_true hpart]
      rfl
    · rw [if_neg fun hand => hpart hand.1, Cursor.part, decide_eq_false hpart]
      rfl

/-- A page handed out for a round of the page loop: one program of the abstract store. -/
theorem program_step (h : FtlInv g s σ) {e : EmptyBlock} {lists : BlockLists}
    (hgot : GotPage g σ.fill σ.limbo lists (some e)) {c : Cursor} (hc : c.Ok g)
    (hpos : 0 < c.remain) (k n : ℕ) :
    FtlInv g { s with
      lists
      tables := updateNewPageMapping g (c.lpn g) (e.ppn g)
        (updateOldPageMapping g (c.lpn g) s.tables) } (σ.place (c.lpn g) e.block) ∧
    FtlStep g σ (.program (c.lpn g) e.block (k, c.part g), [⟨.getNewPage (some e), s⟩,
      ⟨programCall g s.tables c (e.ppn g) k n, { s with lists }⟩]) (σ.place (c.lpn g) e.block) := by
  obtain ⟨hlive, hcurr, hlt, hL₁⟩ := hgot
  obtain ⟨heb, hel⟩ := mem_sdiff.mp hlive
  have hnew : g.IsPage (e.block, σ.fill e.block) := ⟨heb, hlt⟩
  have hppn : e.ppn g = g.ppnOf (e.block, σ.fill e.block) := by
    rw [Geometry.ppn_eq_ppnOf, hcurr]
  rw [hppn, programCall_eq h c hnew]
  exact ⟨⟨hL₁, h.tables.write hc.lpn_nonneg (hc.lpn_lt hpos) hnew rfl⟩, .program hel hlt,
    e, s, { s with lists }, n, h, heb, rfl, hcurr, rfl⟩

variable (g) in
/-- What the page loop leaves, with `todo` the pages of the request still to write. -/
def Written (σ : Store) (todo : List (ℤ × ℕ × Bool)) (labels : List (Act × List Event))
    (σ' : Store) (ret : Ret) : Option Ret → Prop
  | some ret' => hostWrites labels = todo ∧ freePages g σ = freePages g σ' + todo.length ∧
      ret' = if todo = [] then ret else .success
  | none => hostWrites labels <+: todo ∧ hostWrites labels ≠ todo ∧
      freePages g σ < todo.length ∧ ∀ β ∈ g.blocks, σ'.fill β = g.pageNb

/-- **The page loop of `_FTL_WRITE`** programs the pages of the request in order, all of them or
as many as there are free pages. -/
theorem writePages_sim {n rounds k : ℕ} {c : Cursor} {ret : Ret} {r : Option Ret}
    (h : FtlInv g s σ) (hc : 0 < c.remain → c.Ok g)
    (hrun : writePages g fuel n rounds c k ret s = some (r, s', events)) :
    ∃ labels σ', Sim g σ s' events labels σ' ∧ σ'.limbo = σ.limbo ∧ ¬ GcAborted events ∧
      Written g σ (pieces g rounds c k) labels σ' ret r := by
  induction rounds generalizing c k ret s σ events with
  | zero =>
    simp only [writePages, Option.some.injEq, Prod.mk.injEq] at hrun
    obtain ⟨rfl, rfl, rfl⟩ := hrun
    exact ⟨[], σ, .refl h, rfl, by simp, rfl, rfl, rfl⟩
  | succ rounds ih =>
    by_cases hpos : 0 < c.remain
    swap
    · rw [writePages, if_neg hpos] at hrun
      simp only [Option.some.injEq, Prod.mk.injEq] at hrun
      obtain ⟨rfl, rfl, rfl⟩ := hrun
      rw [pieces, if_neg hpos]
      exact ⟨[], σ, .refl h, rfl, by simp, rfl, rfl, rfl⟩
    obtain ⟨L, hL⟩ := h.lists
    rw [pieces, if_pos hpos]
    rcases writePages_succ hpos hrun with ⟨rfl, lists, hget, rfl, rfl⟩ |
      ⟨e, lists, ev₁, hget, hloop, rfl⟩
    · -- no page is free: the request fails here
      obtain ⟨⟨L₁, hL₁⟩, hfull⟩ := hostNewPage_spec hL hget
      have hs₁ : FtlInv g { s with lists } σ := ⟨⟨L₁, hL₁⟩, h.tables⟩
      refine ⟨_, σ, .silent ?_ hs₁, rfl, by simp, List.nil_prefix, (List.cons_ne_nil _ _).symm, ?_,
        hfull⟩
      · simp only [List.mem_cons, List.not_mem_nil, or_false, forall_eq_or_imp, forall_eq]
        exact ⟨⟨trivial, h⟩, trivial, hs₁⟩
      · rw [freePages_eq_zero hfull, List.length_cons]
        omega
    · have hgot := hostNewPage_spec hL hget
      obtain ⟨hinv₁, hstep⟩ := program_step h hgot (hc hpos) hpos k n
      obtain ⟨labels, σ', hsim, hlimbo, habort, hwritten⟩ :=
        ih hinv₁ (fun hnext => (hc hpos).next hnext) hloop
      have hfree := freePages_place (c.lpn g) (mem_sdiff.mp hgot.1).1 hgot.2.2.1
      refine ⟨_, σ', (Sim.step hstep hinv₁).append hsim, hlimbo,
        by simp [habort, programCall_ne_error], ?_⟩
      cases r with
      | none =>
        obtain ⟨hpre, hne, hlt, hfull⟩ := hwritten
        exact ⟨(List.prefix_cons_inj _).mpr hpre, fun heq => hne (List.cons.inj heq).2,
          by rw [List.length_cons]; omega, hfull⟩
      | some ret' =>
        obtain ⟨hhost, hsum, rfl⟩ := hwritten
        exact ⟨by simp [hhost], by rw [List.length_cons]; omega, by simp⟩

/-! ### `GC_CHECK` -/

/-- The collections of `GC_CHECK`, seen as one trace. -/
private theorem collectLoop_sim {n : ℕ} {u : Unit} (h : FtlInv g s σ)
    (hrun : collectLoop g fuel n s = some (u, s', events)) :
    ∃ labels σ', Sim g σ s' events labels σ' ∧ hostWrites labels = [] ∧
      (¬ GcAborted events → σ'.limbo = σ.limbo) := by
  induction n generalizing s σ events with
  | zero =>
    simp only [collectLoop, Option.some.injEq, Prod.mk.injEq] at hrun
    obtain ⟨-, rfl, rfl⟩ := hrun
    exact ⟨[], σ, .refl h, rfl, fun _ => rfl⟩
  | succ n ih =>
    obtain ⟨L, hL⟩ := h.lists
    simp only [collectLoop, Option.bind_eq_bind, Option.bind_eq_some_iff] at hrun
    obtain ⟨⟨r, s₁, ev₁⟩, hgc, hrun⟩ := hrun
    obtain ⟨ls₁, σ₁, hsim₁, hhost₁, hout⟩ := garbageCollection_sim h hL hgc
    cases hout with
    | nothing _ hσ _ _ =>
      simp only [Option.some.injEq, Prod.mk.injEq] at hrun
      obtain ⟨-, rfl, rfl⟩ := hrun
      exact ⟨ls₁, σ₁, hsim₁, hhost₁, fun _ => by rw [hσ]⟩
    | aborted _ _ hev _ _ =>
      simp only [Option.some.injEq, Prod.mk.injEq] at hrun
      obtain ⟨-, rfl, rfl⟩ := hrun
      exact ⟨ls₁, σ₁, hsim₁, hhost₁, fun hno => absurd hev hno⟩
    | collected _ hlimbo _ _ =>
      simp only [Option.bind_eq_some_iff] at hrun
      obtain ⟨⟨u', s₂, ev₂⟩, hloop, hrun⟩ := hrun
      simp only [Option.some.injEq, Prod.mk.injEq] at hrun
      obtain ⟨-, rfl, rfl⟩ := hrun
      obtain ⟨ls₂, σ₂, hsim₂, hhost₂, hlimbo₂⟩ := ih hsim₁.inv hloop
      refine ⟨_, σ₂, hsim₁.append hsim₂, by rw [hostWrites_append, hhost₁, hhost₂]; rfl,
        fun hno => ?_⟩
      rw [gcAborted_append, not_or] at hno
      rw [hlimbo₂ hno.2, hlimbo]

theorem gcCheck_sim {u : Unit} (h : FtlInv g s σ) (hrun : gcCheck g fuel s = some (u, s', events)) :
    ∃ labels σ', Sim g σ s' events labels σ' ∧ hostWrites labels = [] ∧
      (¬ GcAborted events → σ'.limbo = σ.limbo) := by
  rw [gcCheck] at hrun
  split at hrun
  · exact collectLoop_sim h hrun
  · simp only [Option.some.injEq, Prod.mk.injEq] at hrun
    obtain ⟨-, rfl, rfl⟩ := hrun
    exact ⟨[], σ, .refl h, rfl, fun _ => rfl⟩

/-! ### A write request -/

/-- An in-range request passes the bounds check. -/
theorem InRange.toU32_le {sectorNb : ℤ} {length : ℕ} (h : InRange g sectorNb length) :
    ¬ g.sectorNb < toU32 (sectorNb + length) := by
  have h0 := h.nonneg
  have hb := h.le_int32
  have hd := h.le_device
  have hx := toU32_of_nonneg (x := sectorNb + length) (by omega) (by omega)
  omega

variable (g) in
/-- The host pages of a request. -/
def requestPages (sectorNb : ℤ) (length : ℕ) : List (ℤ × ℕ × Bool) :=
  pieces g length (.start g sectorNb length) 0

theorem requestPages_ne_nil {sectorNb : ℤ} {length : ℕ} (h : InRange g sectorNb length) :
    requestPages g sectorNb length ≠ [] := by
  obtain ⟨n, rfl⟩ : ∃ n, length = n + 1 := ⟨length - 1, by have := h.pos; omega⟩
  rw [requestPages, pieces, if_pos (show 0 < (Cursor.start g sectorNb (n + 1)).remain from
    Nat.succ_pos n)]
  exact List.cons_ne_nil _ _

/-- The two ways a write request within the device ends. -/
theorem ftlWrite_cases {sectorNb : ℤ} {length : ℕ} {r : Ret} (hreq : InRange g sectorNb length)
    (hrun : ftlWrite g fuel sectorNb length s = some (r, s', events)) :
    ∃ r₁ s₁ ev₁, writePages g fuel (ioPageNb g sectorNb length) length
        (.start g sectorNb length) 0 .fail s = some (r₁, s₁, ev₁) ∧
      ((r₁ = none ∧ r = .fail ∧ s' = s₁ ∧
        events = ⟨.allocIoRequest sectorNb length .write, s⟩ :: ev₁) ∨
      ∃ ev₂, r₁ = some r ∧ gcCheck g fuel s₁ = some ((), s', ev₂) ∧
        events = ⟨.allocIoRequest sectorNb length .write, s⟩ ::
          (ev₁ ++ ⟨.increaseIoRequestSeqNb, s₁⟩ :: ev₂)) := by
  rw [ftlWrite, if_neg hreq.toU32_le] at hrun
  simp only [Option.bind_eq_bind, Option.bind_eq_some_iff] at hrun
  obtain ⟨⟨r₁, s₁, ev₁⟩, hloop, hrun⟩ := hrun
  refine ⟨r₁, s₁, ev₁, hloop, ?_⟩
  cases r₁ with
  | none =>
    simp only [Option.some.injEq, Prod.mk.injEq] at hrun
    obtain ⟨rfl, rfl, rfl⟩ := hrun
    exact .inl ⟨rfl, rfl, rfl, rfl⟩
  | some ret =>
    simp only [Option.bind_eq_some_iff] at hrun
    obtain ⟨⟨⟨⟩, s₂, ev₂⟩, hcheck, hrun⟩ := hrun
    simp only [Option.some.injEq, Prod.mk.injEq] at hrun
    obtain ⟨rfl, rfl, rfl⟩ := hrun
    exact .inr ⟨ev₂, rfl, hcheck, rfl⟩

/-- **`_FTL_WRITE` refines the page store**: it programs the pages of the request, all of them
exactly when it returns `SUCCESS`, and only an aborted collection leaves a block in limbo. -/
theorem ftlWrite_sim {sectorNb : ℤ} {length : ℕ} {r : Ret} (h : FtlInv g s σ)
    (hreq : InRange g sectorNb length)
    (hrun : ftlWrite g fuel sectorNb length s = some (r, s', events)) :
    ∃ labels σ', Sim g σ s' events labels σ' ∧
      hostWrites labels <+: requestPages g sectorNb length ∧
      (r = .success ↔ hostWrites labels = requestPages g sectorNb length) ∧
      (¬ GcAborted events → σ'.limbo = σ.limbo) := by
  obtain ⟨r₁, s₁, ev₁, hloop, hend⟩ := ftlWrite_cases hreq hrun
  obtain ⟨ls₁, σ₁, hsim₁, hlimbo₁, habort₁, hwritten⟩ :=
    writePages_sim h (fun _ => .start hreq) hloop
  have halloc : Sim g σ s [⟨.allocIoRequest sectorNb length .write, s⟩] _ σ :=
    .silent (by simpa using ⟨trivial, h⟩) h
  rcases hend with ⟨rfl, rfl, rfl, rfl⟩ | ⟨ev₂, rfl, hcheck, rfl⟩
  · obtain ⟨hpre, hne, -⟩ := hwritten
    exact ⟨_, σ₁, halloc.append hsim₁, hpre, ⟨fun hr => absurd hr (by simp), fun heq => absurd heq hne⟩,
      fun _ => hlimbo₁⟩
  · obtain ⟨hhost, -, hret⟩ := hwritten
    obtain ⟨ls₂, σ₂, hsim₂, hhost₂, hlimbo₂⟩ := gcCheck_sim hsim₁.inv hcheck
    have hincr : Sim g σ₁ s₁ [⟨.increaseIoRequestSeqNb, s₁⟩] _ σ₁ :=
      .silent (by simpa using ⟨trivial, hsim₁.inv⟩) hsim₁.inv
    have hall : hostWrites (ls₁ ++ ((.skip, [⟨.increaseIoRequestSeqNb, s₁⟩]) :: ls₂)) =
        requestPages g sectorNb length := by
      rw [hostWrites_append, hostWrites_skip, hhost₂, List.append_nil]
      exact hhost
    have hsuccess : r = .success := hret.trans (if_neg (requestPages_ne_nil hreq))
    refine ⟨_, σ₂, halloc.append (hsim₁.append (hincr.append hsim₂)), hall ▸ List.prefix_rfl,
      ⟨fun _ => hall, fun _ => hsuccess⟩, fun hno => ?_⟩
    simp only [gcAborted_cons, gcAborted_append, not_or] at hno
    rw [hlimbo₂ hno.2.2.2, hlimbo₁]

end Vssim
