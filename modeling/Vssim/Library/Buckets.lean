import Mathlib.Algebra.BigOperators.Group.Finset.Basic
import Mathlib.Algebra.BigOperators.Group.Finset.Sigma
import Mathlib.Algebra.Order.BigOperators.Group.Finset
import Mathlib.Data.Finset.Card
import Mathlib.Algebra.GroupWithZero.Nat

/-!
# Buckets

A family of lists that sorts the elements of a finite set by a key: list `i` holds exactly
the elements with key `i`, each once. Moving an element in, out or around within its list
keeps this, and sums over the lists are sums over the set.
-/

/-- The lists `M 0, …, M (n - 1)` sort the elements of `live` by `key`. -/
structure Buckets {β : Type} (key : β → ℕ) (n : ℕ) (live : Finset β) (M : ℕ → List β) : Prop where
  key_lt : ∀ b ∈ live, key b < n
  nodup : ∀ i < n, (M i).Nodup
  mem_iff : ∀ i < n, ∀ b, b ∈ M i ↔ b ∈ live ∧ key b = i

namespace Buckets

open Finset

variable {β : Type} {key : β → ℕ} {n : ℕ} {live : Finset β} {M M' : ℕ → List β}

theorem mem_live (h : Buckets key n live M) {i : ℕ} (hi : i < n) {b : β} (hb : b ∈ M i) :
    b ∈ live :=
  ((h.mem_iff i hi b).mp hb).1

theorem key_eq (h : Buckets key n live M) {i : ℕ} (hi : i < n) {b : β} (hb : b ∈ M i) :
    key b = i :=
  ((h.mem_iff i hi b).mp hb).2

theorem mem_key (h : Buckets key n live M) {b : β} (hb : b ∈ live) : b ∈ M (key b) :=
  (h.mem_iff _ (h.key_lt b hb) b).mpr ⟨hb, rfl⟩

/-- Reordering the lists keeps the buckets. -/
theorem perm (h : Buckets key n live M) (hM : ∀ i < n, (M' i).Perm (M i)) :
    Buckets key n live M' where
  key_lt := h.key_lt
  nodup i hi := (hM i hi).nodup_iff.mpr (h.nodup i hi)
  mem_iff i hi b := by rw [(hM i hi).mem_iff, h.mem_iff i hi]

/-- Adding a new element to the list of its key. -/
theorem insert [DecidableEq β] (h : Buckets key n live M) {b : β} (hb : b ∉ live)
    (hk : key b < n) (hself : (M' (key b)).Perm (b :: M (key b)))
    (hM : ∀ i < n, i ≠ key b → (M' i).Perm (M i)) :
    Buckets key n (insert b live) M' where
  key_lt c hc := by
    rcases mem_insert.mp hc with rfl | hc
    · exact hk
    · exact h.key_lt c hc
  nodup i hi := by
    by_cases hib : i = key b
    · subst hib
      refine hself.nodup_iff.mpr (List.nodup_cons.mpr ⟨fun hmem => ?_, h.nodup _ hi⟩)
      exact hb (h.mem_live hi hmem)
    · exact (hM i hi hib).nodup_iff.mpr (h.nodup i hi)
  mem_iff i hi c := by
    by_cases hib : i = key b
    · subst hib
      rw [hself.mem_iff, List.mem_cons, h.mem_iff _ hi, mem_insert]
      constructor
      · rintro (rfl | ⟨hc, hkc⟩)
        · exact ⟨.inl rfl, rfl⟩
        · exact ⟨.inr hc, hkc⟩
      · rintro ⟨rfl | hc, hkc⟩
        · exact .inl rfl
        · exact .inr ⟨hc, hkc⟩
    · rw [(hM i hi hib).mem_iff, h.mem_iff i hi, mem_insert]
      constructor
      · rintro ⟨hc, hkc⟩
        exact ⟨.inr hc, hkc⟩
      · rintro ⟨rfl | hc, hkc⟩
        · exact absurd hkc.symm hib
        · exact ⟨hc, hkc⟩

/-- Taking an element off the list of its key. -/
theorem erase [DecidableEq β] (h : Buckets key n live M) {b : β}
    (hself : (b :: M' (key b)).Perm (M (key b)))
    (hM : ∀ i < n, i ≠ key b → (M' i).Perm (M i)) :
    Buckets key n (live.erase b) M' where
  key_lt c hc := h.key_lt c (mem_of_mem_erase hc)
  nodup i hi := by
    by_cases hib : i = key b
    · subst hib
      exact (List.nodup_cons.mp (hself.nodup_iff.mpr (h.nodup _ hi))).2
    · exact (hM i hi hib).nodup_iff.mpr (h.nodup i hi)
  mem_iff i hi c := by
    by_cases hib : i = key b
    · subst hib
      have hnd := List.nodup_cons.mp (hself.nodup_iff.mpr (h.nodup _ hi))
      have hmem : c = b ∨ c ∈ M' (key b) ↔ c ∈ live ∧ key c = key b := by
        rw [← List.mem_cons, hself.mem_iff, h.mem_iff _ hi]
      rw [mem_erase]
      constructor
      · intro hc
        exact ⟨⟨fun hcb => hnd.1 (hcb ▸ hc), (hmem.mp (.inr hc)).1⟩, (hmem.mp (.inr hc)).2⟩
      · rintro ⟨⟨hcb, hc⟩, hkc⟩
        exact (hmem.mpr ⟨hc, hkc⟩).resolve_left hcb
    · rw [(hM i hi hib).mem_iff, h.mem_iff i hi, mem_erase]
      constructor
      · rintro ⟨hc, hkc⟩
        exact ⟨⟨fun hcb => hib (hcb ▸ hkc.symm), hc⟩, hkc⟩
      · rintro ⟨⟨-, hc⟩, hkc⟩
        exact ⟨hc, hkc⟩

/-- The lists one after the other hold exactly the elements, ... -/
theorem mem_flatMap (h : Buckets key n live M) {b : β} :
    b ∈ (List.range n).flatMap M ↔ b ∈ live := by
  rw [List.mem_flatMap]
  constructor
  · rintro ⟨i, hi, hb⟩
    exact h.mem_live (List.mem_range.mp hi) hb
  · exact fun hb => ⟨key b, List.mem_range.mpr (h.key_lt b hb), h.mem_key hb⟩

/-- ... each once. -/
theorem nodup_flatMap (h : Buckets key n live M) : ((List.range n).flatMap M).Nodup := by
  rw [List.nodup_flatMap]
  refine ⟨fun i hi => h.nodup i (List.mem_range.mp hi), ?_⟩
  refine List.pairwise_lt_range.imp_of_mem fun hi hj hlt => ?_
  intro b hbi hbj
  rw [← h.key_eq (List.mem_range.mp hi) hbi, ← h.key_eq (List.mem_range.mp hj) hbj] at hlt
  exact lt_irrefl _ hlt

/-- A sum over all lists is a sum over the set. -/
theorem sum_eq (h : Buckets key n live M) (f : β → ℕ) :
    ∑ i ∈ range n, ((M i).map f).sum = ∑ b ∈ live, f b := by
  classical
  rw [← sum_fiberwise_of_maps_to (t := range n) (g := key) fun b hb => mem_range.mpr (h.key_lt b hb)]
  refine sum_congr rfl fun i hi => ?_
  have hi := mem_range.mp hi
  rw [← List.sum_toFinset f (h.nodup i hi)]
  refine sum_congr (ext fun b => ?_) fun _ _ => rfl
  rw [List.mem_toFinset, h.mem_iff i hi, mem_filter]

/-- The lists have as many entries as the set has elements. -/
theorem sum_length (h : Buckets key n live M) : ∑ i ∈ range n, (M i).length = live.card := by
  have hsum := h.sum_eq fun _ => 1
  simpa using hsum

end Buckets
