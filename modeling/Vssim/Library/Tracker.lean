import Mathlib.Data.Finset.Card
import Mathlib.Data.List.Perm.Basic
import Mathlib.Data.List.Range
import Mathlib.Order.Interval.Finset.Nat

/-!
# Tracking the parts of jobs

Jobs arrive one after the other and are numbered in this order; a job of size `n` has the parts
`0, …, n - 1`, which are begun in order and finished in any order. A job is **live** until all
its parts have been begun and finished. The tracker records, for every job, how many of
its parts have been begun, and which parts are pending.

The lemmas say what the three operations do to the list of live jobs, which is what an
implementation keeps, and to the number of parts finished, which is what it counts.
-/

/-- The state of a tracker. -/
structure Tracker where
  count : ℕ
  size : ℕ → ℕ
  begun : ℕ → ℕ
  pending : Finset (ℕ × ℕ)
  begun_le : ∀ r, begun r ≤ size r
  size_eq_zero : ∀ r, count ≤ r → size r = 0
  pending_lt : ∀ p ∈ pending, p.2 < begun p.1

namespace Tracker

open Finset

/-- No job has arrived. -/
def empty : Tracker where
  count := 0
  size := fun _ => 0
  begun := fun _ => 0
  pending := ∅
  begun_le _ := le_rfl
  size_eq_zero _ _ := rfl
  pending_lt := by simp

variable (τ : Tracker)

/-- A job of size `n` arrives. -/
def arrive (n : ℕ) : Tracker where
  count := τ.count + 1
  size := Function.update τ.size τ.count n
  begun := τ.begun
  pending := τ.pending
  begun_le r := by
    by_cases hr : r = τ.count
    · have hzero := τ.begun_le τ.count
      rw [τ.size_eq_zero τ.count le_rfl] at hzero
      rw [hr]
      omega
    · rw [Function.update_of_ne hr]
      exact τ.begun_le r
  size_eq_zero r hr := by
    rw [Function.update_of_ne (by omega)]
    exact τ.size_eq_zero r (by omega)
  pending_lt := τ.pending_lt

/-- The next part of job `r` is begun. -/
def begin (r : ℕ) (hr : τ.begun r < τ.size r) : Tracker where
  count := τ.count
  size := τ.size
  begun := Function.update τ.begun r (τ.begun r + 1)
  pending := insert (r, τ.begun r) τ.pending
  begun_le k := by
    by_cases hk : k = r
    · rw [hk, Function.update_self]
      omega
    · rw [Function.update_of_ne hk]
      exact τ.begun_le k
  size_eq_zero := τ.size_eq_zero
  pending_lt p hp := by
    rcases mem_insert.mp hp with rfl | hp
    · simp
    · have hlt := τ.pending_lt p hp
      by_cases hk : p.1 = r
      · rw [hk, Function.update_self]
        rw [hk] at hlt
        omega
      · rw [Function.update_of_ne hk]
        exact hlt

/-- Part `p` is finished. -/
def finish (p : ℕ × ℕ) : Tracker where
  count := τ.count
  size := τ.size
  begun := τ.begun
  pending := τ.pending.erase p
  begun_le := τ.begun_le
  size_eq_zero := τ.size_eq_zero
  pending_lt q hq := τ.pending_lt q (mem_of_mem_erase hq)

/-- The number of pending parts of a job. -/
def inFlight (r : ℕ) : ℕ := #{p ∈ τ.pending | p.1 = r}

/-- The number of finished parts of a job. -/
def finished (r : ℕ) : ℕ := τ.begun r - τ.inFlight r

/-- Some part of the job has yet to be begun or finished. -/
def Live (r : ℕ) : Prop := τ.begun r < τ.size r ∨ τ.inFlight r ≠ 0

instance : DecidablePred τ.Live := fun _ => inferInstanceAs (Decidable (_ ∨ _))

/-- The live jobs, in order of arrival. -/
def liveJobs : List ℕ := (List.range τ.count).filter fun r => τ.Live r

variable {τ}

theorem begun_eq_zero {r : ℕ} (hr : τ.count ≤ r) : τ.begun r = 0 := by
  have hle := τ.begun_le r
  rw [τ.size_eq_zero r hr] at hle
  omega

theorem lt_count {p : ℕ × ℕ} (hp : p ∈ τ.pending) : p.1 < τ.count := by
  by_contra hle
  have hlt := τ.pending_lt p hp
  rw [begun_eq_zero (not_lt.mp hle)] at hlt
  omega

theorem inFlight_eq_zero_iff {r : ℕ} : τ.inFlight r = 0 ↔ ∀ p ∈ τ.pending, p.1 ≠ r := by
  rw [inFlight, card_eq_zero, filter_eq_empty_iff]

private theorem inFlight_le (r : ℕ) : τ.inFlight r ≤ τ.begun r := by
  have hcard := card_le_card_of_injOn (s := {p ∈ τ.pending | p.1 = r}) (t := range (τ.begun r))
    Prod.snd (fun p hp => ?_) fun p hp q hq heq => ?_
  · rwa [card_range] at hcard
  · obtain ⟨hmem, rfl⟩ := mem_filter.mp hp
    exact mem_coe.mpr (mem_range.mpr (τ.pending_lt p hmem))
  · exact Prod.ext ((mem_filter.mp hp).2.trans (mem_filter.mp hq).2.symm) heq

theorem finished_le (r : ℕ) : τ.finished r ≤ τ.begun r := Nat.sub_le ..

theorem live_of_mem {p : ℕ × ℕ} (hp : p ∈ τ.pending) : τ.Live p.1 :=
  .inr fun h0 => inFlight_eq_zero_iff.mp h0 p hp rfl

theorem Live.lt_count {r : ℕ} (h : τ.Live r) : r < τ.count := by
  rcases h with hlt | hne
  · by_contra hle
    rw [τ.size_eq_zero r (not_lt.mp hle)] at hlt
    omega
  · obtain ⟨p, hp, rfl⟩ : ∃ p ∈ τ.pending, p.1 = r := by
      by_contra hall
      push Not at hall
      exact hne (inFlight_eq_zero_iff.mpr hall)
    exact Tracker.lt_count hp

@[simp] theorem mem_liveJobs {r : ℕ} : r ∈ τ.liveJobs ↔ τ.Live r := by
  rw [liveJobs, List.mem_filter, List.mem_range, decide_eq_true_iff]
  exact ⟨fun h => h.2, fun h => ⟨h.lt_count, h⟩⟩

theorem nodup_liveJobs : τ.liveJobs.Nodup := List.nodup_range.filter _

/-- A job is live exactly when not all its parts are finished. -/
theorem live_iff {r : ℕ} : τ.Live r ↔ τ.finished r ≠ τ.size r := by
  have h₁ := τ.begun_le r
  have h₂ := τ.inFlight_le r
  rw [Live, finished]
  omega

/-! ### The operations -/

section arrive

variable {n : ℕ}

theorem live_arrive (r : ℕ) : (τ.arrive n).Live r ↔ τ.Live r ∨ r = τ.count ∧ 0 < n := by
  have hin : (τ.arrive n).inFlight r = τ.inFlight r := rfl
  have hb : (τ.arrive n).begun r = τ.begun r := rfl
  rw [Live, Live, hin, hb]
  by_cases hr : r = τ.count
  · subst hr
    have h0 : τ.begun τ.count = 0 := begun_eq_zero le_rfl
    have hs : (τ.arrive n).size τ.count = n := Function.update_self ..
    have hz := τ.size_eq_zero τ.count le_rfl
    omega
  · have hs : (τ.arrive n).size r = τ.size r := Function.update_of_ne hr ..
    rw [hs]
    simp [hr]

theorem liveJobs_arrive (hn : 0 < n) : (τ.arrive n).liveJobs = τ.liveJobs ++ [τ.count] := by
  have hnew : (τ.arrive n).Live τ.count := (live_arrive _).mpr (.inr ⟨rfl, hn⟩)
  rw [liveJobs, show (τ.arrive n).count = τ.count + 1 from rfl, List.range_succ, List.filter_append,
    List.filter_cons_of_pos (by simpa using hnew), List.filter_nil]
  congr 1
  refine List.filter_congr fun r hr => ?_
  have hne : r ≠ τ.count := (List.mem_range.mp hr).ne
  simp [live_arrive, hne]

end arrive

section begin

variable {r : ℕ} {hr : τ.begun r < τ.size r}

theorem notMem_pending : (r, τ.begun r) ∉ τ.pending := fun hmem =>
  lt_irrefl _ (τ.pending_lt _ hmem)

theorem begun_begin_self : (τ.begin r hr).begun r = τ.begun r + 1 := Function.update_self ..

theorem begun_begin_of_ne {k : ℕ} (hk : k ≠ r) : (τ.begin r hr).begun k = τ.begun k :=
  Function.update_of_ne hk ..

private theorem inFlight_begin (k : ℕ) :
    (τ.begin r hr).inFlight k = if k = r then τ.inFlight r + 1 else τ.inFlight k := by
  have hpend : (τ.begin r hr).pending = insert (r, τ.begun r) τ.pending := rfl
  rw [inFlight, hpend, filter_insert]
  by_cases hk : k = r
  · subst hk
    rw [if_pos rfl, if_pos rfl, card_insert_of_notMem fun hmem =>
      notMem_pending (mem_filter.mp hmem).1, inFlight]
  · rw [if_neg (fun h => hk h.symm), if_neg hk, inFlight]

/-- Beginning a part finishes none. -/
theorem finished_begin (k : ℕ) : (τ.begin r hr).finished k = τ.finished k := by
  have hle := τ.inFlight_le k
  rw [finished, finished, inFlight_begin]
  by_cases hk : k = r
  · subst hk
    rw [if_pos rfl, begun_begin_self]
    omega
  · rw [if_neg hk, begun_begin_of_ne hk]

theorem liveJobs_begin : (τ.begin r hr).liveJobs = τ.liveJobs := by
  refine List.filter_congr fun k _ => ?_
  rw [decide_eq_decide, live_iff, live_iff, finished_begin]
  rfl

end begin

section finish

variable {p : ℕ × ℕ} (hp : p ∈ τ.pending)

include hp

private theorem inFlight_finish (r : ℕ) :
    τ.inFlight r = if r = p.1 then (τ.finish p).inFlight r + 1 else (τ.finish p).inFlight r := by
  have hpend : (τ.finish p).pending = τ.pending.erase p := rfl
  rw [inFlight, inFlight, hpend, filter_erase]
  by_cases hr : r = p.1
  · rw [if_pos hr, card_erase_add_one (mem_filter.mpr ⟨hp, hr.symm⟩)]
  · rw [if_neg hr, erase_eq_of_notMem fun hmem => hr (mem_filter.mp hmem).2.symm]

/-- Finishing a part counts it. -/
theorem finished_finish (r : ℕ) :
    (τ.finish p).finished r = if r = p.1 then τ.finished r + 1 else τ.finished r := by
  have hle := τ.inFlight_le r
  have hin := inFlight_finish hp r
  have hb : (τ.finish p).begun r = τ.begun r := rfl
  rw [finished, finished, hb]
  split_ifs at hin ⊢ <;> omega

theorem live_finish_of_ne {r : ℕ} (hr : r ≠ p.1) : (τ.finish p).Live r ↔ τ.Live r := by
  rw [live_iff, live_iff, finished_finish hp, if_neg hr]
  rfl

/-- The job of the part leaves the list when it was the last one. -/
theorem liveJobs_finish :
    (τ.finish p).liveJobs =
      if (τ.finish p).Live p.1 then τ.liveJobs else τ.liveJobs.erase p.1 := by
  split
  · rename_i hlive
    refine List.filter_congr fun r _ => ?_
    by_cases hr : r = p.1
    · rw [hr, decide_eq_true hlive, decide_eq_true (live_of_mem hp)]
    · rw [decide_eq_decide, live_finish_of_ne hp hr]
  · rename_i hlive
    rw [nodup_liveJobs.erase_eq_filter, liveJobs, liveJobs, List.filter_filter]
    refine List.filter_congr fun r _ => ?_
    by_cases hr : r = p.1
    · simp [hr, hlive]
    · simp [hr, live_finish_of_ne hp hr]

end finish

end Tracker
