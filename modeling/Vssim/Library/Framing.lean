import Mathlib.Data.Nat.Notation

/-!
# Records in a stream

A reader that is called whenever a part of a stream has arrived: it appends the part to what it
has kept, and handles the records in there one after the other. A record ends with a delimiter,
and what follows the last one is kept for the next call.

How the stream is cut into parts does not matter (`foldl_receive`): the records that are handled are
those that have arrived as a whole (`receive_records`, `exists_records`).
-/

namespace Framing

variable {α σ : Type} {p : α → Bool} {handle : σ → List α → σ} {xs ys r rest : List α}

/-- The first record, with its delimiter, and what follows. -/
def cut (p : α → Bool) : List α → Option (List α × List α)
  | [] => none
  | x :: xs => if p x then some ([x], xs) else (cut p xs).map fun y => (x :: y.1, y.2)

/-- Handle the records of a buffer, as long as there are any; what is left is kept. -/
def drain (p : α → Bool) (handle : σ → List α → σ) : ℕ → List α → σ → σ × List α
  | 0, buffer, s => (s, buffer)
  | fuel + 1, buffer, s =>
    match cut p buffer with
    | none => (s, buffer)
    | some (r, rest) => drain p handle fuel rest (handle s r)

/-- A part of the stream arrives. -/
def receive (p : α → Bool) (handle : σ → List α → σ) (x : σ × List α) (part : List α) :
    σ × List α :=
  drain p handle (x.2 ++ part).length (x.2 ++ part) x.1

/-- A cut takes the stream apart. -/
private theorem cut_eq_some (h : cut p xs = some (r, rest)) : xs = r ++ rest ∧ r ≠ [] := by
  induction xs generalizing r with
  | nil => cases h
  | cons x xs ih =>
    rw [cut] at h
    split at h
    · cases h
      exact ⟨rfl, List.cons_ne_nil _ _⟩
    · obtain ⟨⟨r', rest'⟩, hcut, hy⟩ := Option.map_eq_some_iff.mp h
      cases hy
      exact ⟨congrArg (x :: ·) (ih hcut).1, List.cons_ne_nil _ _⟩

/-- What arrives later does not change the first record. -/
private theorem cut_append (h : cut p xs = some (r, rest)) (ys : List α) :
    cut p (xs ++ ys) = some (r, rest ++ ys) := by
  induction xs generalizing r with
  | nil => cases h
  | cons x xs ih =>
    rw [cut] at h
    rw [List.cons_append, cut]
    split at h
    · next hx =>
      cases h
      rw [if_pos hx]
    · next hx =>
      obtain ⟨⟨r', rest'⟩, hcut, hy⟩ := Option.map_eq_some_iff.mp h
      cases hy
      rw [if_neg hx, ih hcut]
      rfl

private theorem length_cut (h : cut p xs = some (r, rest)) : rest.length < xs.length := by
  obtain ⟨rfl, hne⟩ := cut_eq_some h
  have hpos := List.length_pos_iff.mpr hne
  rw [List.length_append]
  omega

/-- More rounds than there are records make no difference. -/
private theorem drain_of_le {fuel : ℕ} (h : xs.length ≤ fuel) (s : σ) :
    drain p handle fuel xs s = drain p handle xs.length xs s := by
  obtain ⟨n, hn⟩ : ∃ n, xs.length = n := ⟨_, rfl⟩
  induction n using Nat.strongRecOn generalizing xs fuel s with
  | ind n ih =>
    cases hcut : cut p xs with
    | none =>
      cases fuel <;> cases hxs : xs.length <;> simp only [drain, hcut]
    | some y =>
      obtain ⟨r, rest⟩ := y
      have hlt := length_cut hcut
      obtain ⟨m, hm⟩ := Nat.exists_eq_add_one_of_ne_zero (Nat.ne_of_gt (Nat.zero_lt_of_lt hlt))
      obtain ⟨k, rfl⟩ := Nat.exists_eq_add_one_of_ne_zero
        (Nat.ne_of_gt (Nat.lt_of_lt_of_le (Nat.zero_lt_of_lt hlt) h))
      rw [hm, drain, drain, hcut]
      exact (ih rest.length (by omega) (by omega) _ rfl).trans
        (ih rest.length (by omega) (by omega) _ rfl).symm

private theorem drain_eq_of_none (h : cut p xs = none) (fuel : ℕ) (s : σ) :
    drain p handle fuel xs s = (s, xs) := by
  cases fuel <;> simp only [drain, h]

private theorem drain_eq_of_some (h : cut p xs = some (r, rest)) (s : σ) :
    drain p handle xs.length xs s = drain p handle rest.length rest (handle s r) := by
  have hlt := length_cut h
  obtain ⟨m, hm⟩ := Nat.exists_eq_add_one_of_ne_zero (Nat.ne_of_gt (Nat.zero_lt_of_lt hlt))
  rw [hm, drain, h]
  exact drain_of_le (by omega) _

/-- Handling what has arrived first and then the rest, or all at once. -/
private theorem drain_append (xs ys : List α) (s : σ) :
    drain p handle (xs ++ ys).length (xs ++ ys) s =
      receive p handle (drain p handle xs.length xs s) ys := by
  obtain ⟨n, hn⟩ : ∃ n, xs.length = n := ⟨_, rfl⟩
  induction n using Nat.strongRecOn generalizing xs s with
  | ind n ih =>
    cases hcut : cut p xs with
    | none => rw [drain_eq_of_none hcut, receive]
    | some y =>
      obtain ⟨r, rest⟩ := y
      rw [drain_eq_of_some hcut, drain_eq_of_some (cut_append hcut ys)]
      exact ih rest.length (hn ▸ length_cut hcut) rest _ rfl

/-- What is kept holds no record. -/
private theorem cut_drain (xs : List α) (s : σ) :
    cut p (drain p handle xs.length xs s).2 = none := by
  obtain ⟨n, hn⟩ : ∃ n, xs.length = n := ⟨_, rfl⟩
  induction n using Nat.strongRecOn generalizing xs s with
  | ind n ih =>
    cases hcut : cut p xs with
    | none => rw [drain_eq_of_none hcut, hcut]
    | some y =>
      obtain ⟨r, rest⟩ := y
      rw [drain_eq_of_some hcut]
      exact ih rest.length (hn ▸ length_cut hcut) rest _ rfl

/-- **Fragmentation.** However the stream is cut into parts, the reader ends as if it had arrived at
once. -/
theorem foldl_receive (parts : List (List α)) (x : σ × List α) (hx : cut p x.2 = none) :
    parts.foldl (receive p handle) x = receive p handle x parts.flatten := by
  induction parts generalizing x with
  | nil => rw [List.foldl_nil, receive, List.flatten_nil, List.append_nil, drain_eq_of_none hx]
  | cons part parts ih =>
    have hkeep : cut p (receive p handle x part).2 = none := cut_drain _ _
    rw [List.foldl_cons, ih _ hkeep, List.flatten_cons]
    refine (drain_append (x.2 ++ part) parts.flatten x.1).symm.trans ?_
    rw [receive, List.append_assoc]

/-- A record that has been written is cut off as it is. -/
private theorem cut_record {x : α} (hr : ∀ y ∈ r, p y = false) (hx : p x = true) (rest : List α) :
    cut p (r ++ x :: rest) = some (r ++ [x], rest) := by
  induction r with
  | nil => rw [List.nil_append, cut, if_pos hx, List.nil_append]
  | cons y r ih =>
    have hy : ¬ p y = true := by simp [hr y (by simp)]
    rw [List.cons_append, cut, if_neg hy, ih fun z hz => hr z (List.mem_cons_of_mem _ hz)]
    rfl

private theorem cut_eq_none (hr : ∀ y ∈ r, p y = false) : cut p r = none := by
  induction r with
  | nil => rfl
  | cons y r ih =>
    have hy : ¬ p y = true := by simp [hr y (by simp)]
    rw [cut, if_neg hy, ih fun z hz => hr z (List.mem_cons_of_mem _ hz)]
    rfl

/-- **Records.** A stream of records is handled record by record, and the part of a record at its
end is kept. -/
theorem receive_records {x : α} (hx : p x = true) (rs : List (List α))
    (hrs : ∀ r ∈ rs, ∀ y ∈ r, p y = false) (hrest : ∀ y ∈ rest, p y = false) (s : σ) :
    receive p handle (s, []) ((rs.flatMap fun r => r ++ [x]) ++ rest) =
      (rs.foldl (fun s r => handle s (r ++ [x])) s, rest) := by
  rw [receive, List.nil_append]
  induction rs generalizing s with
  | nil => exact drain_eq_of_none (cut_eq_none hrest) _ s
  | cons r rs ih =>
    have hcut : cut p (((r :: rs).flatMap fun r => r ++ [x]) ++ rest) =
        some (r ++ [x], (rs.flatMap fun r => r ++ [x]) ++ rest) := by
      rw [List.flatMap_cons, List.append_assoc, List.append_assoc]
      exact cut_record (hrs r (by simp)) hx _
    rw [drain_eq_of_some hcut, List.foldl_cons]
    exact ih (fun r hr => hrs r (List.mem_cons_of_mem _ hr)) _

/-- What has arrived of a stream of records is some of its records and a part of the next. -/
theorem exists_records {x : α} (rs : List (List α)) (hrs : ∀ r ∈ rs, ∀ y ∈ r, p y = false)
    (h : xs <+: rs.flatMap fun r => r ++ [x]) : ∃ n ≤ rs.length, ∃ rest,
      xs = ((rs.take n).flatMap fun r => r ++ [x]) ++ rest ∧ ∀ y ∈ rest, p y = false := by
  induction rs generalizing xs with
  | nil => exact ⟨0, Nat.le_refl 0, [], by simpa using h, by simp⟩
  | cons r rs ih =>
    rw [List.flatMap_cons] at h
    rcases List.prefix_or_prefix_of_prefix h (List.prefix_append _ _) with hpre | ⟨ys, rfl⟩
    · rcases List.prefix_concat_iff.mp hpre with rfl | hpre
      · exact ⟨1, by simp, [], by simp, by simp⟩
      · exact ⟨0, by simp, xs, rfl, fun y hy => hrs r (by simp) y (hpre.subset hy)⟩
    · obtain ⟨n, hn, rest, rfl, hrest⟩ := ih (fun r hr => hrs r (List.mem_cons_of_mem _ hr))
        ((List.prefix_append_right_inj _).mp h)
      refine ⟨n + 1, Nat.succ_le_succ hn, rest, ?_, hrest⟩
      simp only [List.take_succ_cons, List.flatMap_cons, List.append_assoc]

end Framing
