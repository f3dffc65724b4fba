import Vssim.Io.Updates

/-!
# The request that an update reaches

`UPDATE_IO_REQUEST` finds its request by number. A `_FTL_WRITE` that finds no free page returns
before `INCREASE_IO_REQUEST_SEQ_NB`, so the next request gets the number of the one it leaves
behind, which is never completed, and the updates for the new request reach the old one.

A ghost beside the I/O manager, `Watch`, records which entry was allocated for which request.
`run_attributed` says that all updates reach the entry they are meant for, and that the
outstanding requests have different numbers, exactly in the runs in which a write that
failed is not followed by a request that is let through.
-/

namespace Vssim

open LinkedHeap Io

/-! ### The ghost -/

namespace Update

/-- `LOOKUP_IO_REQUEST` finds the entry at address `entry`, and the time is recorded within its
bounds. For the number `-1` there is no lookup. -/
def Reaches (u : Update) (entry : ℕ) : Prop :=
  u.requestNb = -1 ∨ u.requests.lookup u.requestNb = .ok (some entry) ∧
    ∃ c ∈ u.requests.heap.cell entry, 0 ≤ u.offset ∧ u.offset < c.val.requestSize

instance (u : Update) (entry : ℕ) : Decidable (u.Reaches entry) := inferInstanceAs (Decidable (_ ∨ _))

/-- A page that starts belongs to the request being served, and so does its register from then
on. -/
def own (entry : ℕ) (owner : ℕ → ℕ) (u : Update) : ℕ → ℕ :=
  match u.type with
  | .startTime => Function.update owner u.reg entry
  | .endTime => owner

end Update

/-- The owners after a list of updates. -/
def owners (entry : ℕ) (owner : ℕ → ℕ) (us : List Update) : ℕ → ℕ :=
  us.foldl (Update.own entry) owner

/-- Every update reaches the entry of the request that its register works for. -/
def AllReach (entry : ℕ) : (ℕ → ℕ) → List Update → Prop
  | _, [] => True
  | owner, u :: us =>
    u.Reaches (u.own entry owner u.reg) ∧ AllReach entry (u.own entry owner) us

instance AllReach.decidable (entry : ℕ) : ∀ owner us, Decidable (AllReach entry owner us)
  | _, [] => inferInstanceAs (Decidable True)
  | owner, u :: us =>
    have := AllReach.decidable entry (u.own entry owner) us
    inferInstanceAs (Decidable (_ ∧ _))

/-- The I/O manager, with the address of the entry allocated for the request being served and
that of the request whose page each register works on. -/
structure Watch where
  io : Io
  entry : ℕ
  owner : ℕ → ℕ

section ghost

variable (g : Geometry) (t : IoConfig) (clk : Clock)

namespace Watch

def init : Watch := ⟨Io.init t, 0, fun _ => 0⟩

/-- One call of the FTL. -/
def step (c : Call) (w : Watch) : Watch where
  io := Io.call g t clk c w.io
  entry := match c with
    | .allocIoRequest .. => w.io.requests.heap.brk
    | _ => w.entry
  owner := owners w.entry w.owner (callUpdates g t clk c w.io)

def run (es : List Event) (w : Watch) : Watch := es.foldl (fun w e => w.step g t clk e.call) w

end Watch

/-- In every state along the events the outstanding requests have different numbers, and every
update reaches the entry of its request. -/
def Attributed : Watch → List Event → Prop
  | w, [] => w.io.outstandingNbs.Nodup
  | w, e :: es => w.io.outstandingNbs.Nodup ∧
    AllReach w.entry w.owner (callUpdates g t clk e.call w.io) ∧ Attributed (w.step g t clk e.call) es

instance Attributed.decidable : ∀ w es, Decidable (Attributed g t clk w es)
  | w, [] => inferInstanceAs (Decidable w.io.outstandingNbs.Nodup)
  | w, e :: es =>
    have := Attributed.decidable (w.step g t clk e.call) es
    inferInstanceAs (Decidable (_ ∧ _ ∧ _))

end ghost

variable {g : Geometry} {t : IoConfig} {clk : Clock} {s s' : Io} {τ : Tracker} {w : Watch}
  {entry k k' : ℕ} {owner : ℕ → ℕ} {us us' : List Update} {es es' : List Event}

private theorem allReach_append : AllReach entry owner (us ++ us') ↔
    AllReach entry owner us ∧ AllReach entry (owners entry owner us) us' := by
  induction us generalizing owner with
  | nil => simp [AllReach, owners]
  | cons u us ih =>
    rw [List.cons_append, AllReach, ih, AllReach, and_assoc]
    rfl

private theorem owners_append : owners entry owner (us ++ us') =
    owners entry (owners entry owner us) us' := List.foldl_append ..

private theorem Attributed.nodup (h : Attributed g t clk w es) : w.io.outstandingNbs.Nodup := by
  cases es with
  | nil => exact h
  | cons e es => exact h.1

private theorem Attributed.nodup_run (h : Attributed g t clk w es) :
    (w.run g t clk es).io.outstandingNbs.Nodup := by
  induction es generalizing w with
  | nil => exact h
  | cons e es ih => exact ih h.2.2

private theorem Watch.run_append : w.run g t clk (es ++ es') = (w.run g t clk es).run g t clk es' :=
  List.foldl_append ..

/-- The ghost only watches. -/
theorem Watch.run_io : (w.run g t clk es).io = ioRun g t clk es w.io := by
  induction es generalizing w with
  | nil => rfl
  | cons e es ih => exact ih

private theorem attributed_append : Attributed g t clk w (es ++ es') ↔
    Attributed g t clk w es ∧ Attributed g t clk (w.run g t clk es) es' := by
  induction es generalizing w with
  | nil => exact ⟨fun h => ⟨h.nodup, h⟩, fun h => h.2⟩
  | cons e es ih =>
    rw [List.cons_append, Attributed, ih, Attributed, and_assoc, and_assoc]
    rfl

/-! ### The invariant -/

/-- The registers work on pending pages, each on another one, and the entry of a request is at
the address that is its number. -/
structure Tied (g : Geometry) (s : Io) (τ : Tracker) (owner : ℕ → ℕ) : Prop where
  fits : Fits τ
  list : ∃ xs, Tracks s.requests τ xs ∧ ∀ x ∈ xs, x.1 = x.2.requestNb
  brk : s.requests.heap.brk = τ.count
  holds : ∀ reg < g.regNb, s.Vacant reg ∨ ∃ p ∈ τ.pending, s.Holds reg p ∧ owner reg = p.1
  inj : ∀ reg < g.regNb, ∀ reg' < g.regNb, ∀ p ∈ τ.pending, s.Holds reg p → s.Holds reg' p →
    reg = reg'

/-- The requests stay the same, and how much of the others has been begun. -/
structure Same (s : Io) (τ : Tracker) (s' : Io) (τ' : Tracker) : Prop where
  count : τ'.count = τ.count
  size : τ'.size = τ.size
  seqNb : s'.ioRequestSeqNb = s.ioRequestSeqNb

private theorem Same.trans {s'' : Io} {τ' τ'' : Tracker} (h : Same s τ s' τ')
    (h' : Same s' τ' s'' τ'') : Same s τ s'' τ'' :=
  ⟨h'.count.trans h.count, h'.size.trans h.size, h'.seqNb.trans h.seqNb⟩

private theorem Among.keyed {l l' : RequestList} {xs xs' : List (ℕ × IoRequest)}
    (h : Among l xs l' xs')
    (hkey : ∀ x ∈ xs, x.1 = x.2.requestNb) : ∀ x ∈ xs', x.1 = x.2.requestNb := by
  intro x hx
  obtain ⟨y, hy, haddr, hnb⟩ := h.entries x hx
  rw [haddr, hnb, hkey y hy]

namespace Tied

variable {reg : ℕ}

private theorem nodup (h : Tied g s τ owner) : s.outstandingNbs.Nodup := by
  obtain ⟨xs, hτ, -⟩ := h.list
  rw [outstandingNbs_eq hτ.rep, hτ.numbers]
  exact Tracker.nodup_liveJobs

/-- The number of a live request leads to its entry. -/
private theorem reaches (h : Tied g s τ owner) {r j : ℕ} (hr : τ.Live r) {u : Update}
    (hnb : u.requestNb = toI32 r) (hoffset : u.offset = j) (hj : j < τ.size r)
    (hrequests : u.requests = s.requests) : u.Reaches r := by
  obtain ⟨xs, hτ, hkey⟩ := h.list
  obtain ⟨ys, a, e, zs, rfl, hreq, hothers⟩ := hτ.find hr
  obtain rfl : a = r := (hkey (a, e) (by simp)).trans hreq
  have hlt := hr.lt_count
  have hfit := h.fits.count_lt
  obtain ⟨n, hcell⟩ := hτ.rep.seg.cell_of_mem (x := (a, e)) (by simp)
  obtain ⟨hsize, -⟩ := hτ.counts (a, e) (by simp)
  dsimp only at hsize
  rw [hreq] at hsize
  rw [Update.Reaches, hnb, hrequests, hoffset]
  refine .inr ⟨RequestList.lookup_spec hτ.rep (by omega)
    (fun y hy => hothers y (List.mem_append_left _ hy)) hreq, ⟨e, n⟩, hcell, Int.natCast_nonneg j, ?_⟩
  dsimp only
  omega

private theorem leaves (h : Tied g s τ owner) (hl : Leaves s s') : Tied g s' τ owner := by
  have hback : ∀ r, ∀ p ∈ τ.pending, s'.Holds r p → s.Holds r p := fun r p hp hold => by
    rcases hl.access r with heq | hvac
    · rwa [Holds, heq] at hold
    · exact absurd hvac (hold.not_vacant h.fits (Tracker.lt_count hp))
  refine ⟨h.fits, ?_, ?_, fun r hr => ?_, fun r hr r' hr' p hp hold hold' =>
    h.inj r hr r' hr' p hp (hback r p hp hold) (hback r' p hp hold')⟩
  · rw [hl.requests]
    exact h.list
  · rw [hl.requests]
    exact h.brk
  · rcases hl.access r with heq | hvac
    · simpa only [Holds, Vacant, heq] using h.holds r hr
    · exact .inl hvac

/-- The page in a register ends. -/
private theorem finish (h : Tied g s τ owner) (hreg : reg < g.regNb) {p : ℕ × ℕ}
    (hp : p ∈ τ.pending) (hold : s.Holds reg p) (helse : Elsewhere reg s s') (hvac : s'.Vacant reg)
    (hlist : ∃ xs, Tracks s'.requests (τ.finish p) xs ∧ ∀ x ∈ xs, x.1 = x.2.requestNb)
    (hbrk : s'.requests.heap.brk = s.requests.heap.brk) : Tied g s' (τ.finish p) owner := by
  have hpend : ∀ q, q ∈ (τ.finish p).pending ↔ q ≠ p ∧ q ∈ τ.pending := fun q => Finset.mem_erase
  have hback : ∀ r, ∀ q ∈ τ.pending, s'.Holds r q → s.Holds r q := fun r q hq hold' => by
    by_cases hr : r = reg
    · rw [hr] at hold'
      exact absurd hvac (hold'.not_vacant h.fits (Tracker.lt_count hq))
    · exact (helse.holds_iff hr q).mp hold'
  refine ⟨⟨h.fits.1, h.fits.2⟩, hlist, hbrk.trans h.brk, fun r hr => ?_,
    fun r hr r' hr' q hq hold₁ hold₂ => ?_⟩
  · by_cases hne : r = reg
    · exact .inl (hne ▸ hvac)
    · rcases h.holds r hr with hvac' | ⟨q, hq, hold', hown⟩
      · exact .inl ((helse.vacant_iff hne).mpr hvac')
      · refine .inr ⟨q, (hpend q).mpr ⟨?_, hq⟩, (helse.holds_iff hne q).mpr hold', hown⟩
        rintro rfl
        exact hne (h.inj r hr reg hreg q hq hold' hold)
  · have hq := ((hpend q).mp hq).2
    exact h.inj r hr r' hr' q hq (hback r q hq hold₁) (hback r' q hq hold₂)

/-- A page starts in a register. What the register held before stays pending for ever. -/
private theorem begin (h : Tied g s τ owner) {r : ℕ} (hr : τ.begun r < τ.size r)
    (haccess : ∀ k ≠ reg, s'.accessNb k = s.accessNb k) (hold : s'.Holds reg (r, τ.begun r))
    (hlist : ∃ xs, Tracks s'.requests (τ.begin r hr) xs ∧ ∀ x ∈ xs, x.1 = x.2.requestNb)
    (hbrk : s'.requests.heap.brk = s.requests.heap.brk) :
    Tied g s' (τ.begin r hr) (Function.update owner reg r) := by
  have hpend : ∀ q, q ∈ (τ.begin r hr).pending ↔ q = (r, τ.begun r) ∨ q ∈ τ.pending :=
    fun q => Finset.mem_insert
  have hcount : r < τ.count := Tracker.Live.lt_count (.inl hr)
  have hsame : ∀ k q, k ≠ reg → (s'.Holds k q ↔ s.Holds k q) := fun k q hk => by
    rw [Holds, Holds, haccess k hk]
  -- the new page is in no other register, and no other page is in `reg`
  have hnew : ∀ k < g.regNb, k ≠ reg → ¬s'.Holds k (r, τ.begun r) := fun k hk hkr hold' => by
    rw [hsame k _ hkr] at hold'
    rcases h.holds k hk with hvac | ⟨q, hq, hold'', -⟩
    · exact hold'.not_vacant h.fits hcount hvac
    · obtain rfl := hold'.inj hold'' h.fits hcount (Tracker.lt_count hq)
      exact Tracker.notMem_pending hq
  have hother : ∀ q ∈ τ.pending, ∀ k, s'.Holds k q → s.Holds k q := fun q hq k hold' => by
    have hkr : k ≠ reg := by
      rintro rfl
      obtain rfl := hold'.inj hold h.fits (Tracker.lt_count hq) hcount
      exact Tracker.notMem_pending hq
    exact (hsame k q hkr).mp hold'
  refine ⟨⟨h.fits.1, h.fits.2⟩, hlist, hbrk.trans h.brk, fun k hk => ?_,
    fun k hk k' hk' q hq hold₁ hold₂ => ?_⟩
  · by_cases hkr : k = reg
    · refine .inr ⟨_, (hpend _).mpr (.inl rfl), hkr ▸ hold, ?_⟩
      rw [hkr, Function.update_self]
    · rcases h.holds k hk with hvac | ⟨q, hq, hold', hown⟩
      · exact .inl (by rw [Vacant, haccess k hkr]; exact hvac)
      · refine .inr ⟨q, (hpend q).mpr (.inr hq), (hsame k q hkr).mpr hold', ?_⟩
        rw [Function.update_of_ne hkr, hown]
  · rcases (hpend q).mp hq with rfl | hq
    · have hk₁ : k = reg := by_contra fun hkr => hnew k hk hkr hold₁
      have hk₂ : k' = reg := by_contra fun hkr => hnew k' hk' hkr hold₂
      rw [hk₁, hk₂]
    · exact h.inj k hk k' hk' q hq (hother q hq k hold₁) (hother q hq k' hold₂)

variable (t clk) in
/-- The end of a page reaches the entry of its request. -/
private theorem ended (h : Tied g s τ owner) (hreg : reg < g.regNb) :
    (endUpdate reg s).Reaches (owner reg) ∧
      ∃ τ', Tied g (ssdUpdateIoRequest t clk reg s) τ' owner ∧
        Same s τ (ssdUpdateIoRequest t clk reg s) τ' ∧ τ'.begun = τ.begun := by
  rcases h.holds reg hreg with hvac | ⟨p, hp, hold, hown⟩
  · have hfst : (s.accessNb reg).1 = -1 := hvac
    have hs : ssdUpdateIoRequest t clk reg s = vacate reg 0 { s with tick := s.tick + 1 + 1 } := by
      simp only [ssdUpdateIoRequest, updateIoRequest, getUsec, hfst, if_true]
    have hleaves : Leaves s (vacate reg 0 { s with tick := s.tick + 1 + 1 }) := by
      refine ⟨rfl, rfl, fun r => ?_⟩
      by_cases hr : r = reg
      · exact .inr (hr ▸ vacate_vacant 0)
      · exact .inl (Function.update_of_ne hr ..)
    rw [hs]
    exact ⟨.inl hfst, τ, h.leaves hleaves, ⟨rfl, rfl, rfl⟩, rfl⟩
  · have hsnd : (s.accessNb reg).2 = p.2 := by rw [Holds] at hold; rw [hold]
    refine ⟨?_, ?_⟩
    · rw [hown]
      exact h.reaches (Tracker.live_of_mem hp) hold.fst hsnd
        (Nat.lt_of_lt_of_le (τ.pending_lt p hp) (τ.begun_le p.1)) rfl
    · obtain ⟨xs, hτ, hkey⟩ := h.list
      obtain ⟨requests, xs', es, k, heq, hτ', hamong, -⟩ := updateIoRequest_finish t clk
        (s := { s with tick := s.tick + 1 }) hτ h.fits
        (if s.initDiffReg ≠ 0 then clk.read s.tick else 0) hp
      obtain ⟨o, hs⟩ : ∃ o, ssdUpdateIoRequest t clk reg s =
          vacate reg o { s with requests, log := s.log ++ es, tick := k } := by
        simp only [ssdUpdateIoRequest, getUsec, hold.fst, hsnd]
        exact ⟨_, congrArg (vacate reg _) heq⟩
      rw [hs]
      exact ⟨τ.finish p, h.finish hreg hp hold (vacate_elsewhere ..) (vacate_vacant o)
        ⟨xs', hτ', hamong.keyed hkey⟩ hamong.brk, ⟨rfl, rfl, rfl⟩, rfl⟩

variable (t clk) in
/-- The start of a page reaches the entry of the request being served. -/
private theorem started (h : Tied g s τ owner)
    (hr : τ.begun s.ioRequestSeqNb < τ.size s.ioRequestSeqNb) :
    (startUpdate reg (τ.begun s.ioRequestSeqNb) s).Reaches s.ioRequestSeqNb ∧
      Tied g (recordHostPage t clk reg (τ.begun s.ioRequestSeqNb) s)
        (τ.begin s.ioRequestSeqNb hr) (Function.update owner reg s.ioRequestSeqNb) ∧
      (recordHostPage t clk reg (τ.begun s.ioRequestSeqNb) s).ioRequestSeqNb = s.ioRequestSeqNb := by
  refine ⟨h.reaches (.inl hr) rfl rfl hr rfl, ?_⟩
  obtain ⟨xs, hτ, hkey⟩ := h.list
  obtain ⟨requests, xs', es, k, heq, hτ', hamong, -⟩ := updateIoRequest_begin t clk
    (s := tie reg (τ.begun s.ioRequestSeqNb) s) hτ h.fits s.oldChannelTime hr
  have hs : ∃ o, recordHostPage t clk reg (τ.begun s.ioRequestSeqNb) s =
      ssdUpdateIoOverhead reg o { tie reg (τ.begun s.ioRequestSeqNb) s with
        requests, log := s.log ++ es, tick := k, ioUpdateOverhead := o } := by
    rw [recordHostPage]
    dsimp only
    rw [show (tie reg (τ.begun s.ioRequestSeqNb) s).ioRequestSeqNb = s.ioRequestSeqNb from rfl,
      show (tie reg (τ.begun s.ioRequestSeqNb) s).oldChannelTime = s.oldChannelTime from rfl, heq]
    exact ⟨_, rfl⟩
  obtain ⟨o, hs⟩ := hs
  rw [hs]
  exact ⟨h.begin hr (fun k hk => Function.update_of_ne hk ..) (Function.update_self ..)
    ⟨xs', hτ', hamong.keyed hkey⟩ hamong.brk, rfl⟩

end Tied

/-! ### Calls -/

private theorem Made.le (h : Made g t clk k s us k' s') : k ≤ k' := by
  induction h with
  | leaves => exact le_rfl
  | ended => exact le_rfl
  | started => exact Nat.le_succ _
  | append _ _ ih ih' => exact ih.trans ih'

/-- While the next pages of the current request start, every update reaches its entry. -/
private theorem Made.tied (h : Made g t clk k s us k' s') {τ : Tracker} {owner : ℕ → ℕ}
    (hτ : Tied g s τ owner) (hk : τ.begun s.ioRequestSeqNb = k)
    (hk' : k' ≤ τ.size s.ioRequestSeqNb) (hentry : k < k' → entry = s.ioRequestSeqNb) :
    AllReach entry owner us ∧ ∃ τ', Tied g s' τ' (owners entry owner us) ∧ Same s τ s' τ' ∧
      τ'.begun s.ioRequestSeqNb = k' := by
  induction h generalizing τ owner with
  | leaves hl => exact ⟨trivial, τ, hτ.leaves hl, ⟨rfl, rfl, hl.seqNb⟩, hk⟩
  | ended hreg =>
    obtain ⟨hreach, τ', hτ', hsame, hbegun⟩ := hτ.ended t clk hreg
    exact ⟨⟨hreach, trivial⟩, τ', hτ', hsame, by rw [hbegun, hk]⟩
  | @started _ reg s hreg =>
    subst hk
    obtain rfl := hentry (Nat.lt_succ_self _)
    obtain ⟨hreach, hτ', hseq⟩ := hτ.started t clk hk'
    refine ⟨⟨?_, trivial⟩, _, hτ', ⟨rfl, rfl, hseq⟩, Tracker.begun_begin_self⟩
    rw [show Update.own _ owner (startUpdate reg _ s) = Function.update owner reg _ from rfl,
      show (startUpdate reg _ s).reg = reg from rfl, Function.update_self]
    exact hreach
  | append hmade hmade' ih ih' =>
    obtain ⟨hreach, τ₁, hτ₁, hsame₁, hbegun₁⟩ := ih hτ hk (hmade'.le.trans hk') fun hlt =>
      hentry (hlt.trans_le hmade'.le)
    rw [← hsame₁.seqNb] at hbegun₁
    obtain ⟨hreach', τ₂, hτ₂, hsame₂, hbegun₂⟩ := ih' hτ₁ hbegun₁
      (by rw [hsame₁.size, hsame₁.seqNb]; exact hk') fun hlt =>
        hsame₁.seqNb.symm ▸ hentry (hmade.le.trans_lt hlt)
    rw [owners_append]
    refine ⟨allReach_append.mpr ⟨hreach, hreach'⟩, τ₂, hτ₂, hsame₁.trans hsame₂, ?_⟩
    rw [← hsame₁.seqNb]
    exact hbegun₂

private theorem hostCalls_of_others {n : ℕ} (hes : ∀ e ∈ es, e.call.IsOther g) :
    HostCalls g n n es := by
  induction es with
  | nil => rfl
  | cons e es ih =>
    exact .inl ⟨hes e (by simp), ih fun e he => hes e (List.mem_cons_of_mem _ he)⟩

variable (t clk) in
/-- The calls for the pages of a request. -/
private theorem hostCalls_attributed {n : ℕ} (hes : HostCalls g n k es) (hτ : Tied g w.io τ w.owner)
    (hk : τ.begun w.io.ioRequestSeqNb = k) (hn : n ≤ τ.size w.io.ioRequestSeqNb)
    (hentry : k < n → w.entry = w.io.ioRequestSeqNb) :
    Attributed g t clk w es ∧ ∃ τ', Tied g (w.run g t clk es).io τ' (w.run g t clk es).owner ∧
      Same w.io τ (w.run g t clk es).io τ' ∧ τ'.begun w.io.ioRequestSeqNb = n := by
  induction es generalizing w τ k with
  | nil =>
    cases (show k = n from hes)
    exact ⟨hτ.nodup, τ, hτ, ⟨rfl, rfl, rfl⟩, hk⟩
  | cons e es ih =>
    have hstep : ∃ k', Made g t clk k w.io (callUpdates g t clk e.call w.io) k'
        (w.step g t clk e.call).io ∧ HostCalls g n k' es ∧ (w.step g t clk e.call).entry = w.entry := by
      rcases hes with ⟨hc, hes⟩ | ⟨hc, hes⟩
      · refine ⟨k, call_other_made t clk hc k w.io, hes, ?_⟩
        cases hcall : e.call <;> first | rfl | (rw [hcall] at hc; exact hc.elim)
      · refine ⟨k + 1, call_host_made t clk hc w.io, hes, ?_⟩
        cases hcall : e.call <;> first | rfl | (rw [hcall] at hc; exact hc.elim)
    obtain ⟨k', hmade, hes', hentry'⟩ := hstep
    have hle := HostCalls.le hes'
    obtain ⟨hreach, τ₁, hτ₁, hsame₁, hbegun₁⟩ := hmade.tied hτ hk (hle.trans hn) fun hlt =>
      hentry (hlt.trans_le hle)
    obtain ⟨hattr, τ₂, hτ₂, hsame₂, hbegun₂⟩ := ih hes' hτ₁ (by rw [hsame₁.seqNb]; exact hbegun₁)
      (by rw [hsame₁.size, hsame₁.seqNb]; exact hn) fun hlt => by
        rw [hentry', hsame₁.seqNb]
        exact hentry (hmade.le.trans_lt hlt)
    refine ⟨⟨hτ.nodup, hreach, hattr⟩, τ₂, hτ₂, hsame₁.trans hsame₂, ?_⟩
    rw [← hsame₁.seqNb]
    exact hbegun₂

/-! ### Requests -/

/-- Between two host requests, when none has been left behind. -/
structure Idle (g : Geometry) (w : Watch) (τ : Tracker) : Prop where
  tied : Tied g w.io τ w.owner
  seqNb : w.io.ioRequestSeqNb = τ.count

/-- A request has been left behind: the next one gets its number. -/
def Orphan (s : Io) : Prop :=
  ∃ xs, SRep s.requests.heap s.requests.root xs ∧ ∃ x ∈ xs, x.2.requestNb = s.ioRequestSeqNb

section requests

variable (t clk) {sectorNb : ℤ} {length : ℕ} (ioType : IoType) (sAlloc : Ftl)

/-- The allocation and the pages of a request, up to page `m`. -/
private theorem Idle.serve {m : ℕ} (h : Idle g w τ) (hcount : τ.count + 1 < 2 ^ 32 - 1)
    (hpos : 0 < ioPageNb g sectorNb length) (hlt : ioPageNb g sectorNb length < 2 ^ 15)
    (hes : HostCalls g m 0 es) (hm : m ≤ ioPageNb g sectorNb length) :
    ∃ w' τ', w' = w.run g t clk (⟨.allocIoRequest sectorNb length ioType, sAlloc⟩ :: es) ∧
      Attributed g t clk w (⟨.allocIoRequest sectorNb length ioType, sAlloc⟩ :: es) ∧
      Tied g w'.io τ' w'.owner ∧ w'.io.ioRequestSeqNb = τ.count ∧ τ'.count = τ.count + 1 ∧
      τ'.begun τ.count = m ∧ τ'.size τ.count = ioPageNb g sectorNb length := by
  obtain ⟨xs, hτ, hkey⟩ := h.tied.list
  obtain ⟨requests, k, o, halloc, hrep, hbrk⟩ := allocIoRequest_push (g := g) clk hτ.rep sectorNb
    length ioType
  have htracks := allocIoRequest_arrive hτ h.seqNb ioType hpos hlt hrep
  have hio : (w.step g t clk (.allocIoRequest sectorNb length ioType)).io =
      { w.io with requests, tick := k, ioAllocOverhead := o } := halloc
  -- the new entry is at the address that is its number
  have htied : Tied g (w.step g t clk (.allocIoRequest sectorNb length ioType)).io
      (τ.arrive (ioPageNb g sectorNb length)) w.owner := by
    rw [hio]
    refine ⟨h.tied.fits.arrive hcount hlt, ⟨_, htracks, fun x hx => ?_⟩,
      hbrk.trans (congrArg Nat.succ h.tied.brk), h.tied.holds, h.tied.inj⟩
    rcases List.mem_append.mp hx with hx | hx
    · exact hkey x hx
    · obtain rfl := List.mem_singleton.mp hx
      exact h.tied.brk.trans h.seqNb.symm
  have hseq : (w.step g t clk (.allocIoRequest sectorNb length ioType)).io.ioRequestSeqNb =
      τ.count := by
    rw [hio]
    exact h.seqNb
  have hsize : (τ.arrive (ioPageNb g sectorNb length)).size τ.count = ioPageNb g sectorNb length :=
    Function.update_self ..
  obtain ⟨hattr, τ', hτ', hsame, hbegun⟩ := hostCalls_attributed t clk hes htied
    (by rw [hseq]; exact Tracker.begun_eq_zero (τ := τ) le_rfl) (by rw [hseq, hsize]; exact hm)
    fun _ => by rw [hseq]; exact h.tied.brk
  rw [hseq] at hbegun
  exact ⟨_, τ', rfl, ⟨h.tied.nodup, trivial, hattr⟩, hτ', hsame.seqNb.trans hseq, hsame.count,
    hbegun, by rw [hsame.size, hsize]⟩

/-- A request that follows the script leaves none behind. -/
private theorem Idle.script {n : ℕ} (h : Idle g w τ) (hes : Script g n es)
    (hcount : τ.count + 1 < 2 ^ 32 - 1) (hn : n < 2 ^ 15) :
    Attributed g t clk w es ∧ ∃ τ', Idle g (w.run g t clk es) τ' ∧ τ'.count = τ.count + 1 := by
  obtain ⟨sectorNb, length, ioType, pages, gc, sAlloc, sNext, rfl, rfl, hpos, hpages, hgc⟩ := hes
  obtain ⟨w₁, τ₁, hw₁, hattr₁, hτ₁, hseq₁, hcount₁, -, -⟩ := h.serve t clk ioType sAlloc
    hcount hpos hn hpages le_rfl
  -- the next number is fresh, and the collection starts no page
  set w₂ := w₁.step g t clk .increaseIoRequestSeqNb with hw₂
  have hseq₂ : w₂.io.ioRequestSeqNb = τ₁.count := by
    change (if w₁.io.ioRequestSeqNb = 0xffffffff then 0 else w₁.io.ioRequestSeqNb + 1) = _
    rw [hseq₁, if_neg (by omega), hcount₁]
  have hτ₂ : Tied g w₂.io τ₁ w₂.owner := ⟨hτ₁.fits, hτ₁.list, hτ₁.brk, hτ₁.holds, hτ₁.inj⟩
  obtain ⟨hattr₃, τ₃, hτ₃, hsame₃, -⟩ := hostCalls_attributed t clk
    (hostCalls_of_others (n := 0) hgc) hτ₂
    (by rw [hseq₂]; exact Tracker.begun_eq_zero le_rfl) (Nat.zero_le _)
    fun hlt => absurd hlt (lt_irrefl 0)
  rw [← List.cons_append, attributed_append]
  have hrun : w.run g t clk (⟨.allocIoRequest sectorNb length ioType, sAlloc⟩ ::
      pages ++ ⟨.increaseIoRequestSeqNb, sNext⟩ :: gc) = w₂.run g t clk gc := by
    rw [Watch.run_append, ← hw₁]
    rfl
  rw [hrun, ← hw₁]
  exact ⟨⟨hattr₁, hτ₁.nodup, trivial, hattr₃⟩, τ₃,
    ⟨hτ₃, by rw [hsame₃.seqNb, hseq₂, hsame₃.count]⟩, by rw [hsame₃.count, hcount₁]⟩

/-- A request that is given up is left behind. -/
private theorem Idle.truncated {n : ℕ} (h : Idle g w τ) (hes : Truncated g n es)
    (hcount : τ.count + 1 < 2 ^ 32 - 1) (hn : n < 2 ^ 15) :
    Attributed g t clk w es ∧ Orphan (w.run g t clk es).io := by
  obtain ⟨sectorNb, length, ioType, pages, sAlloc, m, rfl, rfl, hm, hpages⟩ := hes
  obtain ⟨w₁, τ₁, hw₁, hattr₁, hτ₁, hseq₁, -, hbegun₁, hsize₁⟩ := h.serve t clk ioType sAlloc
    hcount (Nat.zero_lt_of_lt hm) hn hpages hm.le
  rw [← hw₁]
  refine ⟨hattr₁, ?_⟩
  have hlive : τ₁.Live τ.count := .inl (by rw [hbegun₁, hsize₁]; exact hm)
  obtain ⟨xs, hτ, -⟩ := hτ₁.list
  obtain ⟨ys, a, e, zs, rfl, hnb, -⟩ := hτ.find hlive
  exact ⟨_, hτ.rep, (a, e), by simp, hnb.trans hseq₁.symm⟩

/-- The next request after one that was left behind gets its number. -/
private theorem Orphan.not_attributed (h : Orphan w.io) :
    ¬Attributed g t clk w (⟨.allocIoRequest sectorNb length ioType, sAlloc⟩ :: es) := by
  rintro ⟨-, -, hattr⟩
  obtain ⟨xs, hrep, x, hx, hnb⟩ := h
  obtain ⟨requests, k, o, halloc, hrep', -⟩ := allocIoRequest_push (g := g) clk hrep sectorNb
    length ioType
  have hio : (w.step g t clk (.allocIoRequest sectorNb length ioType)).io =
      { w.io with requests, tick := k, ioAllocOverhead := o } := halloc
  have hnodup := hattr.nodup
  rw [hio, outstandingNbs_eq hrep', List.map_append, List.nodup_append] at hnodup
  exact hnodup.2.2 _ (List.mem_map_of_mem hx) w.io.ioRequestSeqNb (by simp [newRequest]) hnb

end requests

/-! ### Runs -/

/-- The first event of a history is an allocation. -/
private theorem eventLog_cases {hist : List Served} {f f' : Ftl}
    (htrace : Trace (Serve g) f hist f')
    (hf : f.Bounded g) : (∀ e ∈ hist, e.events = []) ∨ ∃ sectorNb length ioType sAlloc es,
      eventLog hist = ⟨.allocIoRequest sectorNb length ioType, sAlloc⟩ :: es := by
  induction htrace with
  | nil => exact .inl (by simp)
  | @cons f m f' e hist hserve _ ih =>
    obtain ⟨hm, hcases⟩ := hserve.outline hf
    have hlog : eventLog (e :: hist) = e.events ++ eventLog hist := rfl
    rcases hcases with ⟨-, sectorNb, length, ioType, pages, sAlloc, m, heq, -⟩ | ⟨-, hnil |
      ⟨sectorNb, length, ioType, pages, gc, sAlloc, sNext, heq, -⟩⟩
    · exact .inr ⟨sectorNb, length, ioType, sAlloc, _, by rw [hlog, heq]; rfl⟩
    · rcases ih hm with hall | ⟨sectorNb, length, ioType, sAlloc, es, heq⟩
      · exact .inl fun e' he' => (List.mem_cons.mp he').elim (fun h => h ▸ hnil) (hall e')
      · exact .inr ⟨sectorNb, length, ioType, sAlloc, es, by rw [hlog, hnil, heq]; rfl⟩
    · exact .inr ⟨sectorNb, length, ioType, sAlloc, _, by rw [hlog, heq]; rfl⟩

/-- Served requests from a state in which none has been left behind. -/
private theorem serves_attributed {hist : List Served} {f f' : Ftl}
    (htrace : Trace (Serve g) f hist f')
    (hf : f.Bounded g) (hw : Idle g w τ) (hlen : τ.count + hist.length < 2 ^ 32 - 1)
    (hsize : ∀ e ∈ hist, e.request.pageNb g ≤ 32767) :
    Attributed g t clk w (eventLog hist) ↔
      hist.Pairwise fun e e' => e.Failed → e'.events = [] := by
  induction htrace generalizing w τ with
  | nil => exact iff_of_true hw.tied.nodup .nil
  | @cons f m f' e hist hserve htrace ih =>
    obtain ⟨hm, hcases⟩ := hserve.outline hf
    have hsize' := fun e' he' => hsize e' (List.mem_cons_of_mem e he')
    have hn := hsize e (by simp)
    rw [List.length_cons] at hlen
    rw [show eventLog (e :: hist) = e.events ++ eventLog hist from rfl, attributed_append,
      List.pairwise_cons]
    rcases hcases with ⟨hfail, htrunc⟩ | ⟨hok, hevents⟩
    · -- the write leaves its request behind: nothing may follow
      obtain ⟨hattr, horphan⟩ := hw.truncated t clk htrunc (by omega) (by omega)
      rcases eventLog_cases htrace hm with hnil | ⟨sectorNb, length, ioType, sAlloc, es, heq⟩
      · have hlog : eventLog hist = [] := List.flatMap_eq_nil_iff.mpr hnil
        rw [hlog]
        exact iff_of_true ⟨hattr, hattr.nodup_run⟩ ⟨fun e' he' _ => hnil e' he',
          List.pairwise_of_forall_mem_list fun e _ e' he' _ => hnil e' he'⟩
      · rw [heq]
        refine iff_of_false (fun h => horphan.not_attributed t clk ioType sAlloc h.2) fun h => ?_
        have hlog : eventLog hist = [] := List.flatMap_eq_nil_iff.mpr fun e' he' => h.1 e' he' hfail
        cases hlog.symm.trans heq
    · rw [and_iff_right fun e' _ hfail => absurd hfail hok]
      rcases hevents with hnil | hscript
      · rw [hnil]
        exact (and_iff_right hw.tied.nodup).trans (ih hm hw (by omega) hsize')
      · obtain ⟨hattr, τ', hw', hcount⟩ := hw.script t clk hscript (by omega) (by omega)
        exact (and_iff_right hattr).trans (ih hm hw' (by omega) hsize')

private theorem init_idle : Idle g (Watch.init t) Tracker.empty := by
  refine ⟨⟨⟨by decide, fun _ => (by decide : 0 < 2 ^ 15)⟩, ⟨[], ⟨⟨rfl, rfl, fun h => absurd rfl h⟩,
    rfl, by simp⟩, by simp⟩, rfl, fun _ _ => .inl rfl, ?_⟩, rfl⟩
  simp [Tracker.empty]

variable (t clk) in
/-- **Failed writes and the requests after them.** Updates reach the entry of their request, and
the outstanding requests have different numbers, exactly when no write that found no free
page is followed by a request that is let through. -/
theorem run_attributed {hist : List Served} {f : Ftl} (hrun : Run g hist f)
    (hlen : hist.length < 2 ^ 32 - 1) (hsize : ∀ e ∈ hist, e.request.pageNb g ≤ 32767) :
    Attributed g t clk (Watch.init t) (eventLog hist) ↔
      hist.Pairwise fun e e' => e.Failed → e'.events = [] :=
  serves_attributed hrun ftlInit_bounded init_idle
    (by rw [show Tracker.empty.count = 0 from rfl]; omega) hsize

/-- A write that fails at the end of a run does no harm by itself. -/
theorem run_attributed_smallDevice : ∃ hist f, Run smallDevice hist f ∧
    hist.map (fun e => (e.request, e.ret)) = [(.write 0 16, .success), (.write 0 2, .fail)] ∧
    Attributed smallDevice smallDelays steadyClock (Watch.init smallDelays) (eventLog hist) := by
  obtain ⟨hist, f, hrun, hP⟩ := exists_run (g := smallDevice) 30 [.write 0 16, .write 0 2]
    (fun hist _ => decide (hist.map (fun e => (e.request, e.ret)) =
        [(.write 0 16, .success), (.write 0 2, .fail)] ∧
      (∀ e ∈ hist, e.request.pageNb smallDevice ≤ 32767) ∧
      hist.Pairwise fun e _ => e.ret = Ret.success)) (by decide +kernel) (by decide +kernel)
  obtain ⟨hmap, hsize, hret⟩ := of_decide_eq_true hP
  have hlen : hist.length = 2 := by simpa using congrArg List.length hmap
  refine ⟨hist, f, hrun, hmap, (run_attributed smallDelays steadyClock hrun (by omega) hsize).mpr
    (hret.imp fun hsuccess hfail => ?_)⟩
  cases hsuccess.symm.trans hfail.2

/-- The second write leaves its request of one page behind. The read of two pages gets the same
number, and its updates reach that request, the second one past the end of its arrays. -/
theorem orphan_smallDevice : ∃ hist f, Run smallDevice hist f ∧
    hist.map (fun e => (e.request, e.ret)) =
      [(.write 0 16, .success), (.write 0 2, .fail), (.read 0 4, .success)] ∧
    (ioRun smallDevice smallDelays steadyClock (eventLog hist)
      (Io.init smallDelays)).outstandingNbs = [1, 1] ∧
    ¬Attributed smallDevice smallDelays steadyClock (Watch.init smallDelays) (eventLog hist) := by
  obtain ⟨hist, f, hrun, hP⟩ := exists_run (g := smallDevice) 30 [.write 0 16, .write 0 2, .read 0 4]
    (fun hist _ => decide (hist.map (fun e => (e.request, e.ret)) =
        [(.write 0 16, .success), (.write 0 2, .fail), (.read 0 4, .success)] ∧
      (ioRun smallDevice smallDelays steadyClock (eventLog hist)
        (Io.init smallDelays)).outstandingNbs = [1, 1] ∧
      ¬Attributed smallDevice smallDelays steadyClock (Watch.init smallDelays) (eventLog hist)))
    (by decide +kernel) (by decide +kernel)
  exact ⟨hist, f, hrun, of_decide_eq_true hP⟩

end Vssim
