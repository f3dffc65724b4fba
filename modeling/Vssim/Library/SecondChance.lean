import Mathlib.Data.List.Basic
import Mathlib.Data.Nat.ModEq
import Mathlib.Logic.Function.Basic

/-!
# The clock policy

Second-chance replacement: `size` slots with a bit each are arranged in a circle, and a hand
points at one of them. The hand moves on over the slots whose bit is set, clears these bits, and
stops after the first slot whose bit is clear; that slot is the **victim**, and its bit is set.

`select` is the loop, with one unit of fuel per slot it looks at. `select_eq` gives its result in
closed form: the victim is `offset` steps from the hand, and these are never more than a round.
-/

namespace SecondChance

variable {size hand : ℕ} {bits : ℕ → Bool}

/-- The slot `k` steps after the hand. -/
def pos (size hand k : ℕ) : ℕ := (hand + k) % size

/-- The number of slots that are passed over: all of them if every bit is set. -/
def offset (size hand : ℕ) (bits : ℕ → Bool) : ℕ :=
  ((List.range size).find? fun k => !bits (pos size hand k)).getD size

/-- The slot that is selected. -/
def victim (size hand : ℕ) (bits : ℕ → Bool) : ℕ := pos size hand (offset size hand bits)

/-- The bits after the hand has passed over `k` slots. -/
def clear (size hand k : ℕ) (bits : ℕ → Bool) : ℕ → Bool :=
  fun q => if ∃ j < k, pos size hand j = q then false else bits q

/-- The bits after the selection. -/
def settle (size hand : ℕ) (bits : ℕ → Bool) : ℕ → Bool :=
  Function.update (clear size hand (offset size hand bits) bits) (victim size hand bits) true

/-- The loop. The result is the victim, the hand and the bits; `none` when the fuel runs out. -/
def select (size : ℕ) : ℕ → ℕ → (ℕ → Bool) → Option (ℕ × ℕ × (ℕ → Bool))
  | 0, _, _ => none
  | fuel + 1, hand, bits =>
    if bits hand then select size fuel ((hand + 1) % size) (Function.update bits hand false)
    else some (hand, (hand + 1) % size, Function.update bits hand true)

/-! ### Positions -/

private theorem pos_lt (h : hand < size) (k : ℕ) : pos size hand k < size := Nat.mod_lt _ (by omega)

private theorem pos_zero (h : hand < size) : pos size hand 0 = hand := Nat.mod_eq_of_lt h

private theorem pos_size (h : hand < size) : pos size hand size = hand :=
  (Nat.add_mod_right ..).trans (Nat.mod_eq_of_lt h)

private theorem pos_succ (k : ℕ) : (pos size hand k + 1) % size = pos size hand (k + 1) := by
  rw [pos, pos, Nat.mod_add_mod, Nat.add_assoc]

/-- Less than a round apart, two positions are different. -/
private theorem pos_ne {j k : ℕ} (hjk : j < k) (hlt : k < j + size) :
    pos size hand j ≠ pos size hand k := by
  intro h
  have hdvd := (Nat.modEq_iff_dvd' hjk.le).mp (Nat.ModEq.add_left_cancel' hand h)
  have hzero := Nat.eq_zero_of_dvd_of_lt hdvd (by omega)
  omega

/-- Every slot is less than a round away. -/
theorem exists_pos (h : hand < size) {q : ℕ} (hq : q < size) : ∃ j < size, pos size hand j = q := by
  rcases Nat.lt_or_ge q hand with hlt | hge
  · refine ⟨q + size - hand, by omega, ?_⟩
    rw [pos, show hand + (q + size - hand) = q + size by omega, Nat.add_mod_right,
      Nat.mod_eq_of_lt hq]
  · refine ⟨q - hand, by omega, ?_⟩
    rw [pos, show hand + (q - hand) = q by omega, Nat.mod_eq_of_lt hq]

/-! ### The offset of the victim -/

theorem offset_le (size hand : ℕ) (bits : ℕ → Bool) : offset size hand bits ≤ size := by
  rw [offset]
  cases hfind : (List.range size).find? fun k => !bits (pos size hand k) with
  | none => exact le_rfl
  | some k => exact (List.mem_range.mp (List.mem_of_find?_eq_some hfind)).le

/-- The slots that are passed over have their bits set. -/
theorem bits_of_lt_offset {j : ℕ} (hj : j < offset size hand bits) :
    bits (pos size hand j) = true := by
  have hsize := hj.trans_le (offset_le size hand bits)
  rw [offset] at hj
  cases hfind : (List.range size).find? fun k => !bits (pos size hand k) with
  | none => simpa using List.find?_eq_none.mp hfind j (List.mem_range.mpr hsize)
  | some k =>
    rw [hfind, Option.getD_some] at hj
    obtain ⟨-, i, hi, hget, hbefore⟩ := List.find?_eq_some_iff_getElem.mp hfind
    rw [List.getElem_range] at hget
    have hbit := hbefore j (hget ▸ hj)
    rw [List.getElem_range] at hbit
    simpa using hbit

/-- A victim within the round has its bit clear. -/
theorem bits_victim (h : offset size hand bits < size) : bits (victim size hand bits) = false := by
  rw [victim]
  rw [offset] at h ⊢
  cases hfind : (List.range size).find? fun k => !bits (pos size hand k) with
  | none => simp [hfind] at h
  | some k => simpa using List.find?_some hfind

theorem victim_lt (h : hand < size) : victim size hand bits < size := pos_lt h _

/-- When every bit is set the hand comes round to where it was. -/
theorem victim_eq_hand (h : hand < size) (hall : offset size hand bits = size) :
    victim size hand bits = hand := by
  rw [victim, hall, pos_size h]

/-! ### The loop -/

private theorem clear_zero : clear size hand 0 bits = bits := funext fun q => by simp [clear]

private theorem clear_succ (k : ℕ) : clear size hand (k + 1) bits =
    Function.update (clear size hand k bits) (pos size hand k) false := by
  funext q
  by_cases hq : q = pos size hand k
  · rw [hq, Function.update_self, clear, if_pos ⟨k, Nat.lt_succ_self k, rfl⟩]
  · rw [Function.update_of_ne hq, clear, clear]
    refine if_congr ⟨?_, ?_⟩ rfl rfl
    · rintro ⟨j, hj, rfl⟩
      have hne : j ≠ k := fun hjk => hq (hjk ▸ rfl)
      exact ⟨j, by omega, rfl⟩
    · rintro ⟨j, hj, rfl⟩
      exact ⟨j, by omega, rfl⟩

/-- The bit of a slot that the hand has not come to yet. -/
private theorem clear_pos {k : ℕ} (hk : k < size) : clear size hand k bits (pos size hand k) =
    bits (pos size hand k) := by
  rw [clear, if_neg]
  rintro ⟨j, hj, heq⟩
  exact pos_ne hj (by omega) heq

/-- The hand passes over slots whose bits are set, one unit of fuel each. -/
private theorem select_pass (h : hand < size) (fuel : ℕ) {k : ℕ} (hk : k ≤ size)
    (hset : ∀ j < k, bits (pos size hand j) = true) :
    select size (k + fuel) hand bits =
      select size fuel (pos size hand k) (clear size hand k bits) := by
  induction k generalizing fuel with
  | zero => rw [Nat.zero_add, pos_zero h, clear_zero]
  | succ k ih =>
    have hbit : clear size hand k bits (pos size hand k) = true := by
      rw [clear_pos (by omega)]
      exact hset k (Nat.lt_succ_self k)
    rw [Nat.add_assoc, Nat.add_comm 1, ih (fuel + 1) (by omega) fun j hj => hset j (by omega),
      select, if_pos hbit, pos_succ, clear_succ]

/-- When the hand comes to the victim its bit is clear: it was so before, or it is the bit that the
hand has cleared first. -/
private theorem clear_victim (h : hand < size) :
    clear size hand (offset size hand bits) bits (victim size hand bits) = false := by
  rcases Nat.lt_or_ge (offset size hand bits) size with hlt | hge
  · rw [victim, clear_pos hlt]
    exact bits_victim hlt
  · have hall : offset size hand bits = size := le_antisymm (offset_le ..) hge
    rw [victim_eq_hand h hall, clear, if_pos]
    exact ⟨0, by omega, pos_zero h⟩

/-- **The result of the loop**, with fuel for the slots passed over and the victim. -/
theorem select_eq (h : hand < size) {fuel : ℕ} (hfuel : offset size hand bits < fuel) :
    select size fuel hand bits = some (victim size hand bits,
      (victim size hand bits + 1) % size, settle size hand bits) := by
  obtain ⟨rest, rfl⟩ : ∃ rest, fuel = offset size hand bits + (rest + 1) :=
    ⟨fuel - offset size hand bits - 1, by omega⟩
  rw [select_pass h _ (offset_le ..) fun j hj => bits_of_lt_offset hj, select]
  have hclear : clear size hand (offset size hand bits) bits (victim size hand bits) = false :=
    clear_victim h
  rw [victim] at hclear
  rw [if_neg (by simp [hclear])]
  rfl

/-- With less fuel the loop is not over. -/
theorem select_eq_none (h : hand < size) {fuel : ℕ} (hfuel : fuel ≤ offset size hand bits) :
    select size fuel hand bits = none := by
  have hset : ∀ j < fuel, bits (pos size hand j) = true := fun j hj =>
    bits_of_lt_offset (hj.trans_le hfuel)
  have hpass := select_pass h 0 (hfuel.trans (offset_le ..)) hset
  rw [Nat.add_zero] at hpass
  rw [hpass, select]

end SecondChance
