import Vssim.Ftl.Run

/-!
# The rounds of a request

The loops of `_FTL_WRITE`, of the two passes of `_FTL_READ` and of `ALLOC_IO_REQUEST` step through
the same loop variables, `(Cursor.next g)^[i]` of the starting ones in round `i`. For a request
within a device of fewer than `2 ^ 31` sectors they make one round per logical page the request
touches, in ascending order, and round `i` handles the sectors that the request has in its page
(`Round`). None of the loops needs more rounds than that (`split_request`).
-/

namespace Vssim

variable {g : Geometry} {c : Cursor} {n : ℕ}

/-! ### From one round to the next -/

namespace Cursor

private theorem Ok.next_remain_pos_iff (h : Ok g c) :
    0 < (c.next g).remain ↔ c.lpn g < (c.lba + c.remain - 1) / g.sectorsPerPage := by
  have hpos : (0 : ℤ) < g.sectorsPerPage := by exact_mod_cast g.sectorsPerPage_pos
  have hlba := h.lba_eq
  have hskip := h.leftSkip_lt
  rw [h.next_remain, h.sects_eq, ← Int.add_one_le_iff, Int.le_ediv_iff_mul_le hpos, add_mul,
    one_mul, mul_comm]
  omega

private theorem Ok.next_lpn (h : Ok g c) (hpos : 0 < (c.next g).remain) :
    (c.next g).lpn g = c.lpn g + 1 := by
  have hspp : (0 : ℤ) < g.sectorsPerPage := by exact_mod_cast g.sectorsPerPage_pos
  have hskip := h.leftSkip_lt
  have hrem := h.next_remain
  have hsects := h.sects_eq
  have hlba : (c.next g).lba = g.sectorsPerPage * (c.lpn g + 1) := by
    rw [h.next_lba hpos, h.lba_eq, mul_add, mul_one]
    omega
  rw [(h.next hpos).lpn_eq, hlba, Int.mul_ediv_cancel_left _ hspp.ne']

end Cursor

variable (g) in
/-- The loop variables before round `i` of a request: sectors remain, all earlier pages of the
request are done, and only the first page may be skipped into. -/
structure InRound (sectorNb : ℤ) (length i : ℕ) (c : Cursor) : Prop where
  ok : c.Ok g
  pos : 0 < c.remain
  ends : c.lba + c.remain = sectorNb + length
  lpn : c.lpn g = sectorNb / g.sectorsPerPage + i
  start : c.lba = sectorNb ∨ sectorNb < c.lba ∧ c.leftSkip = 0

variable {sectorNb : ℤ} {length : ℕ}

private theorem InRound.start_request (hreq : InRange g sectorNb length) :
    InRound g sectorNb length 0 (.start g sectorNb length) where
  ok := .start hreq
  pos := hreq.pos
  ends := rfl
  lpn := by
    rw [(Cursor.Ok.start hreq).lpn_eq, Nat.cast_zero, add_zero]
    rfl
  start := .inl rfl

/-- The loop goes on as long as the request has a further page. -/
private theorem InRound.next_pos_iff {i : ℕ} (h : InRound g sectorNb length i c) :
    0 < (c.next g).remain ↔ sectorNb / g.sectorsPerPage + i <
      (sectorNb + length - 1) / g.sectorsPerPage := by
  rw [h.ok.next_remain_pos_iff, h.lpn, h.ends]

private theorem InRound.next {i : ℕ} (h : InRound g sectorNb length i c)
    (hpos : 0 < (c.next g).remain) : InRound g sectorNb length (i + 1) (c.next g) where
  ok := h.ok.next hpos
  pos := hpos
  ends := by
    have hrem := h.ok.next_remain
    have hle := h.ok.sects_le
    have hends := h.ends
    rw [h.ok.next_lba hpos]
    omega
  lpn := by
    rw [h.ok.next_lpn hpos, h.lpn]
    push_cast
    ring
  start := by
    have hlba := h.ok.next_lba hpos
    have hsects := h.ok.sects_pos h.pos
    have hstart := h.start
    exact .inr ⟨by omega, rfl⟩

/-! ### What a round handles -/

variable (g) in
/-- Round `i` of a request with loop variables `c`: its page, the sectors it handles, and that none
of the subtractions of the round and none of the updates after it leaves the range of its type. -/
structure Round (sectorNb : ℤ) (length i : ℕ) (c : Cursor) : Prop where
  remain : 0 < c.remain
  lpn : c.lpn g = sectorNb / g.sectorsPerPage + i
  sectors : ∀ sector, c.lba ≤ sector ∧ sector < c.lba + c.sects g ↔
    (sectorNb ≤ sector ∧ sector < sectorNb + length) ∧ sector / g.sectorsPerPage = c.lpn g
  covered : c.leftSkip = 0 ∧ c.rightSkip g = 0 ↔
    ∀ sector, sector / g.sectorsPerPage = c.lpn g → sectorNb ≤ sector ∧ sector < sectorNb + length
  leftSkip_le : c.leftSkip ≤ g.sectorsPerPage
  rightSkip_eq : c.rightSkip g = if g.sectorsPerPage - c.leftSkip < c.remain then (0 : ℤ)
    else g.sectorsPerPage - c.leftSkip - c.remain
  sects_eq : (c.sects g : ℤ) = g.sectorsPerPage - c.leftSkip - c.rightSkip g
  next_remain : ((c.next g).remain : ℤ) = c.remain - c.sects g
  next_lba : (c.next g).lba = c.lba + c.sects g

/-- The first sector of a page, and the last. -/
private theorem page_bounds (l sector : ℤ) : sector / g.sectorsPerPage = l ↔
    g.sectorsPerPage * l ≤ sector ∧ sector < g.sectorsPerPage * l + g.sectorsPerPage := by
  have hpos : (0 : ℤ) < g.sectorsPerPage := by exact_mod_cast g.sectorsPerPage_pos
  rw [Int.ediv_eq_iff_of_pos hpos, mul_comm]

private theorem InRound.round {i : ℕ} (h : InRound g sectorNb length i c)
    (hsize : sectorNb + length < 2 ^ 31) : Round g sectorNb length i c := by
  have hlba := h.ok.lba_eq
  have hskip := h.ok.leftSkip_lt
  have hright := h.ok.rightSkip_eq
  have hsects := h.ok.sects_eq
  have hle := h.ok.sects_le
  have hends := h.ends
  have hstart := h.start
  have hnonneg := h.ok.nonneg
  refine ⟨h.pos, h.lpn, fun sector => ?_, ?_, by omega, by split <;> omega, by omega, ?_, ?_⟩
  · rw [page_bounds]
    omega
  · simp only [page_bounds]
    refine ⟨fun hzero sector hin => by omega, fun hall => ?_⟩
    have hfirst := hall (g.sectorsPerPage * c.lpn g) (by omega)
    have hlast := hall (g.sectorsPerPage * c.lpn g + g.sectorsPerPage - 1) (by omega)
    omega
  · rw [h.ok.next_remain]
    omega
  · exact toI32_of_bounds (by omega) (by omega)

/-! ### The loops, round by round -/

variable (g c n) in
/-- A loop that starts with loop variables `c` makes `n` rounds. -/
structure Rounds : Prop where
  remain : ∀ i < n, 0 < ((Cursor.next g)^[i] c).remain
  ends : ((Cursor.next g)^[n] c).remain = 0

variable (g) in
/-- The page read for the logical page `lpn` in round `k` of the second pass of `_FTL_READ`. -/
def readEvent (s : Ftl) (ioPageNb : ℕ) (lpn : ℤ) (k : ℕ) : Event :=
  let ppn := s.tables.mappingTable lpn
  ⟨.ssdPageRead (calcFlash g ppn) (calcBlock g ppn) (calcPage g ppn) k .read ioPageNb, s⟩

variable (g) in
/-- Round `k` of the page loop of `_FTL_WRITE`, when `GET_NEW_PAGE` hands out a page. -/
def WriteRound (fuel ioPageNb k : ℕ) (c : Cursor) (s s' : Ftl) (events : List Event) : Prop :=
  ∃ e lists, hostNewPage g fuel s.lists = some (some e, lists) ∧
    s' = { s with
      lists
      tables := updateNewPageMapping g (c.lpn g) (e.ppn g)
        (updateOldPageMapping g (c.lpn g) s.tables) } ∧
    events = [⟨.getNewPage (some e), s⟩,
      ⟨programCall g s.tables c (e.ppn g) k ioPageNb, { s with lists }⟩]

private theorem WriteRound.writePages_eq {fuel m k rounds : ℕ} {s s' : Ftl} {events : List Event}
    (h : WriteRound g fuel m k c s s' events) (hpos : 0 < c.remain) (ret : Ret) :
    writePages g fuel m (rounds + 1) c k ret s =
      (writePages g fuel m rounds (c.next g) (k + 1) .success s').map fun w =>
        (w.1, w.2.1, events ++ w.2.2) := by
  obtain ⟨e, lists, hget, rfl, rfl⟩ := h
  rw [writePages, if_pos hpos, hget]
  exact (Option.map_eq_bind ..).symm

namespace Rounds

private theorem head (h : Rounds g c (n + 1)) : 0 < c.remain :=
  h.remain 0 (Nat.succ_pos n)

private theorem tail (h : Rounds g c (n + 1)) : Rounds g (c.next g) n where
  remain i hi := by
    rw [← Function.iterate_succ_apply]
    exact h.remain (i + 1) (by omega)
  ends := by
    rw [← Function.iterate_succ_apply]
    exact h.ends

/-- Without a round the loop condition fails at once. -/
private theorem zero (h : Rounds g c 0) : ¬ 0 < c.remain := by
  have hends : c.remain = 0 := h.ends
  omega

private theorem countPages_eq (h : Rounds g c n) {rounds : ℕ} (hn : n ≤ rounds) :
    countPages g rounds c = n := by
  induction n generalizing c rounds with
  | zero =>
    cases rounds with
    | zero => rfl
    | succ rounds => rw [countPages, if_neg h.zero]
  | succ n ih =>
    obtain ⟨rounds, rfl⟩ : ∃ r, rounds = r + 1 := ⟨rounds - 1, by omega⟩
    rw [countPages, if_pos h.head, ih h.tail (by omega)]

/-- The first pass of `_FTL_READ` looks up the page of every round. -/
theorem checkMapped_iff (h : Rounds g c n) (t : PageTables) {rounds : ℕ} (hn : n ≤ rounds) :
    checkMapped g t rounds c = true ↔
      ∀ i < n, t.mappingTable (((Cursor.next g)^[i] c).lpn g) ≠ -1 := by
  induction n generalizing c rounds with
  | zero =>
    cases rounds with
    | zero => simp [checkMapped]
    | succ rounds => simp [checkMapped, h.zero]
  | succ n ih =>
    obtain ⟨rounds, rfl⟩ : ∃ r, rounds = r + 1 := ⟨rounds - 1, by omega⟩
    rw [checkMapped, if_pos h.head, Nat.forall_lt_succ_left]
    simp only [Function.iterate_succ_apply, Function.iterate_zero, id]
    rw [← ih h.tail (Nat.le_of_succ_le_succ hn)]
    split
    · next hnone => simp [hnone]
    · next hsome => simp [hsome]

private theorem readPages_eq (h : Rounds g c n) (s : Ftl) (ioPageNb k : ℕ) (ret : Ret) {rounds : ℕ}
    (hn : n ≤ rounds) :
    readPages g ioPageNb s rounds c k ret = (if n = 0 then ret else .success,
      (List.range n).map fun i =>
        readEvent g s ioPageNb (((Cursor.next g)^[i] c).lpn g) (k + i)) := by
  induction n generalizing c k ret rounds with
  | zero =>
    cases rounds with
    | zero => rfl
    | succ rounds =>
      rw [readPages, if_neg h.zero]
      rfl
  | succ n ih =>
    obtain ⟨rounds, rfl⟩ : ∃ r, rounds = r + 1 := ⟨rounds - 1, by omega⟩
    rw [readPages, if_pos h.head, ih h.tail (k + 1) .success (by omega), List.range_succ_eq_map,
      List.map_cons, List.map_map]
    simp only [ite_self, Nat.succ_ne_zero, if_false, Prod.mk.injEq, true_and, List.cons.injEq]
    refine ⟨rfl, List.map_congr_left fun i _ => ?_⟩
    rw [Function.comp, Function.iterate_succ_apply, Nat.succ_eq_add_one, add_assoc, add_comm 1]

/-- **The page loop of `_FTL_WRITE`** makes its rounds one after the other, provided that after
`i < n` rounds a page is to be had for the next. -/
theorem writePages_eq (h : Rounds g c n) {fuel : ℕ} (m k : ℕ) (ret : Ret) (s : Ftl) {rounds : ℕ}
    (hn : n ≤ rounds)
    (halloc : ∀ i < n, ∀ r t events, writePages g fuel m i c k ret s = some (some r, t, events) →
      ∃ e lists, hostNewPage g fuel t.lists = some (some e, lists)) :
    ∃ (st : ℕ → Ftl) (ev : ℕ → List Event), st 0 = s ∧
      (∀ i < n, WriteRound g fuel m (k + i) ((Cursor.next g)^[i] c) (st i) (st (i + 1)) (ev i)) ∧
      writePages g fuel m rounds c k ret s =
        some (some (if n = 0 then ret else .success), st n, (List.range n).flatMap ev) := by
  induction n generalizing c k ret s rounds with
  | zero =>
    refine ⟨fun _ => s, fun _ => [], rfl, by simp, ?_⟩
    cases rounds with
    | zero => rfl
    | succ rounds =>
      rw [writePages, if_neg h.zero]
      rfl
  | succ n ih =>
    obtain ⟨rounds, rfl⟩ : ∃ r, rounds = r + 1 := ⟨rounds - 1, by omega⟩
    obtain ⟨e, lists, hget⟩ := halloc 0 (Nat.succ_pos n) ret s [] rfl
    obtain ⟨s₁, ev₁, hround⟩ : ∃ s₁ ev₁, WriteRound g fuel m k c s s₁ ev₁ :=
      ⟨_, _, e, lists, hget, rfl, rfl⟩
    -- the states after the first round are those of a loop that starts there
    obtain ⟨st, ev, hst, hrounds, hloop⟩ := ih h.tail (k + 1) .success s₁
      (Nat.le_of_succ_le_succ hn) fun i hi r t events hrun =>
        halloc (i + 1) (by omega) r t _ (by rw [hround.writePages_eq h.head, hrun]; rfl)
    refine ⟨fun i => Nat.casesOn i s st, fun i => Nat.casesOn i ev₁ ev, rfl, ?_, ?_⟩
    · rw [Nat.forall_lt_succ_left]
      refine ⟨by simpa [hst] using hround, fun i hi => ?_⟩
      have := hrounds i hi
      rwa [add_assoc, add_comm 1, ← Function.iterate_succ_apply] at this
    · rw [hround.writePages_eq h.head, hloop, List.range_succ_eq_map, List.flatMap_cons,
        List.flatMap_map]
      simp

end Rounds

/-! ### Requests within the device -/

variable (g) in
/-- How a request is split: one round per page from the page of its first sector to the page of its
last, the same in all loops, whatever number of rounds they are allowed beyond that. -/
structure Split (sectorNb : ℤ) (length : ℕ) : Prop where
  pages : (ioPageNb g sectorNb length : ℤ) =
    (sectorNb + length - 1) / g.sectorsPerPage - sectorNb / g.sectorsPerPage + 1
  round : ∀ i < ioPageNb g sectorNb length,
    Round g sectorNb length i ((Cursor.next g)^[i] (.start g sectorNb length))
  ends : ((Cursor.next g)^[ioPageNb g sectorNb length] (.start g sectorNb length)).remain = 0
  partition : ∀ sector, sectorNb ≤ sector → sector < sectorNb + length →
    ∃! i, i < ioPageNb g sectorNb length ∧
      ((Cursor.next g)^[i] (.start g sectorNb length)).lba ≤ sector ∧
      sector < ((Cursor.next g)^[i] (.start g sectorNb length)).lba +
        ((Cursor.next g)^[i] (.start g sectorNb length)).sects g
  alloc : ∀ rounds, ioPageNb g sectorNb length ≤ rounds →
    countPages g rounds (.start g sectorNb length) = ioPageNb g sectorNb length
  check : ∀ rounds, ioPageNb g sectorNb length ≤ rounds → ∀ t,
    (checkMapped g t rounds (.start g sectorNb length) = true ↔
      ∀ i < ioPageNb g sectorNb length,
        t.mappingTable (sectorNb / g.sectorsPerPage + i) ≠ -1)
  read : ∀ rounds, ioPageNb g sectorNb length ≤ rounds → ∀ s m,
    readPages g m s rounds (.start g sectorNb length) 0 .fail = (.success,
      (List.range (ioPageNb g sectorNb length)).map fun i : ℕ =>
        readEvent g s m (sectorNb / g.sectorsPerPage + i) i)
  write : ∀ rounds, ioPageNb g sectorNb length ≤ rounds → ∀ fuel m s,
    (∀ i < ioPageNb g sectorNb length, ∀ r t events,
      writePages g fuel m i (.start g sectorNb length) 0 .fail s = some (some r, t, events) →
        ∃ e lists, hostNewPage g fuel t.lists = some (some e, lists)) →
    ∃ (st : ℕ → Ftl) (ev : ℕ → List Event), st 0 = s ∧
      (∀ i < ioPageNb g sectorNb length, WriteRound g fuel m i
        ((Cursor.next g)^[i] (.start g sectorNb length)) (st i) (st (i + 1)) (ev i)) ∧
      writePages g fuel m rounds (.start g sectorNb length) 0 .fail s = some (some .success,
        st (ioPageNb g sectorNb length), (List.range (ioPageNb g sectorNb length)).flatMap ev)

variable (g sectorNb length) in
/-- The number of pages from the page of the first sector to the page of the last. -/
private def spanned : ℕ :=
  ((sectorNb + length - 1) / g.sectorsPerPage - sectorNb / g.sectorsPerPage).toNat + 1

variable (g sectorNb) in
private theorem spanned_eq (hpos : 1 ≤ length) : (spanned g sectorNb length : ℤ) =
    (sectorNb + length - 1) / g.sectorsPerPage - sectorNb / g.sectorsPerPage + 1 := by
  have hmono := Int.ediv_le_ediv (a := sectorNb) (b := sectorNb + length - 1)
    (Int.natCast_pos.mpr g.sectorsPerPage_pos) (by omega)
  rw [spanned]
  omega

/-- Every page of the request has its round. -/
private theorem inRound_iterate (hreq : InRange g sectorNb length) :
    ∀ i < spanned g sectorNb length,
      InRound g sectorNb length i ((Cursor.next g)^[i] (.start g sectorNb length)) := by
  have hn := spanned_eq g sectorNb hreq.pos
  intro i hi
  induction i with
  | zero => exact .start_request hreq
  | succ i ih =>
    have hprev := ih (by omega)
    rw [Function.iterate_succ_apply']
    exact hprev.next (hprev.next_pos_iff.mpr (by omega))

private theorem rounds_request (hreq : InRange g sectorNb length) :
    Rounds g (.start g sectorNb length) (spanned g sectorNb length) where
  remain i hi := (inRound_iterate hreq i hi).pos
  ends := by
    have hn := spanned_eq g sectorNb hreq.pos
    have hlast := (inRound_iterate hreq _ (Nat.lt_succ_self _)).next_pos_iff
    rw [spanned] at hn ⊢
    rw [Function.iterate_succ_apply']
    push_cast at hn
    omega

/-- A page has at least one sector, so a round per sector is enough. -/
private theorem spanned_le (hpos : 1 ≤ length) : spanned g sectorNb length ≤ length := by
  have hn := spanned_eq g sectorNb hpos
  have hspp := g.sectorsPerPage_pos
  have hmod := Int.emod_lt_of_pos sectorNb (Int.natCast_pos.mpr hspp)
  have hdiv := Int.emod_add_mul_ediv sectorNb g.sectorsPerPage
  have hlast : (sectorNb + length - 1) / g.sectorsPerPage <
      sectorNb / g.sectorsPerPage + length := by
    refine Int.ediv_lt_of_lt_mul (Int.natCast_pos.mpr hspp) ?_
    have hmul : (length + g.sectorsPerPage : ℤ) ≤ length * g.sectorsPerPage + 1 := by
      have := Nat.add_sub_one_le_mul (a := length) (b := g.sectorsPerPage) (by omega) hspp.ne'
      norm_cast
      omega
    rw [add_mul, mul_comm]
    omega
  omega

/-- A sector of the request is handled in the round of its page and in no other. -/
private theorem round_unique (hreq : InRange g sectorNb length)
    (hsize : sectorNb + length < 2 ^ 31) {sector : ℤ} (hlo : sectorNb ≤ sector)
    (hhi : sector < sectorNb + length) :
    ∃! i, i < spanned g sectorNb length ∧
      ((Cursor.next g)^[i] (.start g sectorNb length)).lba ≤ sector ∧
      sector < ((Cursor.next g)^[i] (.start g sectorNb length)).lba +
        ((Cursor.next g)^[i] (.start g sectorNb length)).sects g := by
  have hn := spanned_eq g sectorNb hreq.pos
  have hspp : (0 : ℤ) < g.sectorsPerPage := Int.natCast_pos.mpr g.sectorsPerPage_pos
  have hfirst := Int.ediv_le_ediv hspp hlo
  have hlast := Int.ediv_le_ediv hspp (show sector ≤ sectorNb + length - 1 by omega)
  have hin : ∀ i < spanned g sectorNb length,
      (((Cursor.next g)^[i] (.start g sectorNb length)).lba ≤ sector ∧
        sector < ((Cursor.next g)^[i] (.start g sectorNb length)).lba +
          ((Cursor.next g)^[i] (.start g sectorNb length)).sects g ↔
      sector / g.sectorsPerPage = sectorNb / g.sectorsPerPage + i) := fun i hi => by
    have hround := (inRound_iterate hreq i hi).round hsize
    rw [hround.sectors, hround.lpn]
    exact and_iff_right ⟨hlo, hhi⟩
  refine ⟨(sector / g.sectorsPerPage - sectorNb / g.sectorsPerPage).toNat, ⟨by omega, ?_⟩,
    fun i ⟨hi, hsector⟩ => ?_⟩
  · rw [hin _ (by omega)]
    omega
  · rw [hin i hi] at hsector
    omega

/-- **The page loops** of a request within a device of fewer than `2 ^ 31` sectors. -/
theorem split_request (hnonneg : 0 ≤ sectorNb) (hpos : 1 ≤ length)
    (hend : sectorNb + length ≤ g.sectorNb) (hsize : g.sectorNb < 2 ^ 31) :
    Split g sectorNb length := by
  have hreq : InRange g sectorNb length := ⟨hnonneg, hpos, hend, by omega⟩
  have hrounds := rounds_request hreq
  have hround := inRound_iterate hreq
  have hn : spanned g sectorNb length ≠ 0 := Nat.succ_ne_zero _
  have hio : ioPageNb g sectorNb length = spanned g sectorNb length :=
    hrounds.countPages_eq (spanned_le hpos)
  refine ⟨hio ▸ spanned_eq g sectorNb hpos, ?_, hio ▸ hrounds.ends, fun sector hlo hhi => ?_,
    fun rounds hle => ?_, fun rounds hle t => ?_, fun rounds hle s m => ?_,
    fun rounds hle fuel m s halloc => ?_⟩
  all_goals rw [hio] at *
  · exact fun i hi => (hround i hi).round (by omega)
  · exact round_unique hreq (by omega) hlo hhi
  · exact hrounds.countPages_eq hle
  · rw [hrounds.checkMapped_iff t hle]
    exact forall₂_congr fun i hi => by rw [(hround i hi).lpn]
  · rw [hrounds.readPages_eq s m 0 .fail hle, if_neg hn]
    refine congrArg _ (List.map_congr_left fun i hi => ?_)
    rw [(hround i (List.mem_range.mp hi)).lpn, zero_add]
  · obtain ⟨st, ev, hst, hwrite, hloop⟩ := hrounds.writePages_eq m 0 .fail s hle halloc
    rw [if_neg hn] at hloop
    exact ⟨st, ev, hst, fun i hi => by simpa only [zero_add] using hwrite i hi, hloop⟩

/-- Four sectors from sector 3 on: the second half of page 1, page 2, and the first half of
page 3. -/
theorem split_request_smallDevice : Split smallDevice 3 4 ∧ ioPageNb smallDevice 3 4 = 3 :=
  ⟨split_request (by decide) (by decide) (by decide) (by decide), by decide +kernel⟩

end Vssim
