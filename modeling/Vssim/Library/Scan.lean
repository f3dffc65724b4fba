import Mathlib.Data.Int.Notation
import Mathlib.Data.List.TakeWhile

/-!
# Formatted scanning

The conversions of `scanf` that read a text: `%s` (`str`) and the integer conversions (`number`),
with what they leave unread, and the loop that reads a file of keywords (`readAll`). A text is a
list of characters.

What a conversion reads depends on the white space only through the words of the text, so the rules
are stated for `words`: a text whose words start with `w` is read by `str` as `w`
(`str_of_words`), one whose words start with a numeral by `number` as the number
(`number_of_words`), and a file whose words are those of a list of entries is read entry by entry
(`readAll_eq`).
-/

namespace Scan

/-! ### Words -/

/-- `isspace`. -/
def isSpace (c : Char) : Bool :=
  c == ' ' || c == '\t' || c == '\n' || c == '\x0b' || c == '\x0c' || c == '\r'

variable {p : Char → Bool} {c : Char} {cs w rest : List Char} {ws more : List (List Char)}

/-- The parts of a text between separators, without the empty ones. -/
def fields (p : Char → Bool) (cs : List Char) : List (List Char) :=
  (cs.splitOnP p).filter fun w => !w.isEmpty

/-- The words of a text. -/
abbrev words (cs : List Char) : List (List Char) := fields isSpace cs

/-- A text that is over or goes on with a separator. -/
def Ends (p : Char → Bool) (cs : List Char) : Prop := ∀ c ∈ cs.head?, p c = true

@[simp] theorem fields_nil : fields p [] = [] := by
  rw [fields, List.splitOnP_eq_singleton (by simp)]
  rfl

private theorem fields_cons_sep (hc : p c = true) : fields p (c :: cs) = fields p cs := by
  rw [fields, List.splitOnP_cons_eq_if_modifyHead, if_pos hc]
  rfl

private theorem fields_sep_append (hw : ∀ c ∈ w, p c = true) :
    fields p (w ++ cs) = fields p cs := by
  induction w with
  | nil => rfl
  | cons c w ih =>
    rw [List.cons_append, fields_cons_sep (hw c (by simp))]
    exact ih fun c hc => hw c (List.mem_cons_of_mem _ hc)

/-- A part that is followed by a separator, or by nothing. -/
theorem fields_append (hw : w ≠ []) (hp : ∀ c ∈ w, p c = false) (hrest : Ends p rest) :
    fields p (w ++ rest) = w :: fields p rest := by
  have hkeep : (!w.isEmpty) = true := by simpa using hw
  cases rest with
  | nil =>
    rw [List.append_nil, fields_nil, fields, List.splitOnP_eq_singleton hp, List.filter_cons,
      if_pos hkeep]
    rfl
  | cons c rest =>
    have hc : p c = true := hrest c rfl
    rw [fields_cons_sep hc, fields, List.splitOnP_append_cons_of_forall_mem hp c hc,
      List.filter_cons, if_pos hkeep]
    rfl

/-- Parts with a separator behind each. -/
theorem fields_flatMap (hws : ∀ w ∈ ws, w ≠ [] ∧ ∀ c ∈ w, p c = false) (hc : p c = true) :
    fields p (ws.flatMap (fun w => w ++ [c]) ++ cs) = ws ++ fields p cs := by
  induction ws with
  | nil => rfl
  | cons w ws ih =>
    obtain ⟨hne, hw⟩ := hws w (by simp)
    have hrest : Ends p (c :: (ws.flatMap (fun w => w ++ [c]) ++ cs)) := by
      intro c' hc'
      cases hc'
      exact hc
    rw [List.flatMap_cons, List.append_assoc, List.append_assoc, List.singleton_append,
      fields_append hne hw hrest, fields_cons_sep hc, List.cons_append,
      ih fun w hw => hws w (List.mem_cons_of_mem _ hw)]

/-! ### Strings -/

/-- `%s`: the next word and what follows it, nothing at the end of the file. -/
def str (cs : List Char) : Option (List Char × List Char) :=
  let cs := cs.dropWhile isSpace
  if cs.isEmpty then none
  else some (cs.takeWhile fun c => !isSpace c, cs.dropWhile fun c => !isSpace c)

/-- What follows the longest part with a property does not have it. -/
private theorem ends_dropWhile (cs : List Char) : Ends p (cs.dropWhile fun c => !p c) := by
  induction cs with
  | nil => simp [Ends]
  | cons c cs ih =>
    rw [List.dropWhile_cons]
    split
    · exact ih
    · next hc =>
      intro c' hc'
      cases hc'
      simpa using hc

private theorem str_eq_none (h : str cs = none) : words cs = [] := by
  have hall : cs.dropWhile isSpace = [] := by
    by_contra hne
    rw [str, if_neg (by simpa using hne)] at h
    cases h
  have hspace := List.dropWhile_eq_nil_iff.mp hall
  rw [← List.append_nil cs, words, fields_sep_append hspace, fields_nil]

/-- The word that is read stands between white space. -/
private theorem str_eq_some (h : str cs = some (w, rest)) :
    ∃ gap, cs = gap ++ (w ++ rest) ∧ (∀ c ∈ gap, isSpace c = true) ∧ w ≠ [] ∧
      (∀ c ∈ w, isSpace c = false) ∧ Ends isSpace rest := by
  have hne : cs.dropWhile isSpace ≠ [] := by
    intro hnil
    rw [str, hnil] at h
    cases h
  rw [str, if_neg (by simpa using hne)] at h
  cases h
  refine ⟨cs.takeWhile isSpace, ?_, fun c hc => List.mem_takeWhile_imp hc, ?_, ?_,
    ends_dropWhile _⟩
  · rw [List.takeWhile_append_dropWhile, List.takeWhile_append_dropWhile]
  · -- the first character after the white space belongs to the word
    obtain ⟨c, cs', hcs⟩ := List.exists_cons_of_ne_nil hne
    have hc : isSpace c = false := by
      have hhead := List.head?_dropWhile_not isSpace cs
      rw [hcs] at hhead
      exact hhead
    rw [hcs, List.takeWhile_cons_of_pos (by simp [hc])]
    exact List.cons_ne_nil _ _
  · intro c hc
    simpa using List.mem_takeWhile_imp hc

private theorem words_of_str (h : str cs = some (w, rest)) : words cs = w :: words rest := by
  obtain ⟨gap, rfl, hgap, hne, hw, hrest⟩ := str_eq_some h
  rw [words, fields_sep_append hgap, fields_append hne hw hrest]

private theorem length_of_str (h : str cs = some (w, rest)) : rest.length < cs.length := by
  obtain ⟨gap, rfl, -, hne, -⟩ := str_eq_some h
  have hpos := List.length_pos_iff.mpr hne
  simp only [List.length_append]
  omega

/-- `%s` reads the first word. -/
theorem str_of_words (h : words cs = w :: ws) :
    ∃ rest, str cs = some (w, rest) ∧ words rest = ws := by
  cases hstr : str cs with
  | none =>
    rw [str_eq_none hstr] at h
    cases h
  | some x =>
    obtain ⟨w', rest⟩ := x
    rw [words_of_str hstr] at h
    cases h
    exact ⟨rest, rfl, rfl⟩

private theorem str_of_words_nil (h : words cs = []) : str cs = none := by
  cases hstr : str cs with
  | none => rfl
  | some x =>
    obtain ⟨w, rest⟩ := x
    rw [words_of_str hstr] at h
    cases h

/-! ### Numbers -/

/-- An optional sign: whether it is a minus, and what follows. -/
def sign : List Char → Bool × List Char
  | '-' :: cs => (true, cs)
  | '+' :: cs => (false, cs)
  | cs => (false, cs)

/-- The input item of `%d` and `%u` and its value; without a digit the conversion fails. A sign is
read in any case. -/
def number (cs : List Char) : Option ℤ × List Char :=
  let (neg, cs) := sign (cs.dropWhile isSpace)
  let digits := cs.takeWhile Char.isDigit
  let value : ℤ := Nat.ofDigitChars 10 digits 0
  (if digits.isEmpty then none else some (if neg then -value else value), cs.dropWhile Char.isDigit)

/-- A number as `printf` writes it. -/
def numeral (z : ℤ) : List Char :=
  if z < 0 then '-' :: Nat.toDigits 10 z.natAbs else Nat.toDigits 10 z.natAbs

private theorem isSpace_of_isDigit (h : c.isDigit = true) : isSpace c = false := by
  by_contra hspace
  rw [Bool.not_eq_false] at hspace
  simp only [isSpace, Bool.or_eq_true, beq_iff_eq] at hspace
  rcases hspace with ((((rfl | rfl) | rfl) | rfl) | rfl) | rfl <;> exact absurd h (by decide)

/-- A digit is no sign. -/
private theorem sign_of_isDigit (h : c.isDigit = true) : sign (c :: cs) = (false, c :: cs) := by
  have hminus : c ≠ '-' := by
    rintro rfl
    exact absurd h (by decide)
  have hplus : c ≠ '+' := by
    rintro rfl
    exact absurd h (by decide)
  rw [sign]
  · simpa using hminus
  · simpa using hplus

theorem isDigit_of_mem {n : ℕ} (h : c ∈ Nat.toDigits 10 n) : c.isDigit = true :=
  Nat.isDigit_of_mem_toDigits (by decide) (by decide) h

theorem isSpace_of_mem_numeral {z : ℤ} (h : c ∈ numeral z) : isSpace c = false := by
  rw [numeral] at h
  split at h
  · rcases List.mem_cons.mp h with rfl | h
    · decide
    · exact isSpace_of_isDigit (isDigit_of_mem h)
  · exact isSpace_of_isDigit (isDigit_of_mem h)

theorem numeral_ne_nil (z : ℤ) : numeral z ≠ [] := by
  rw [numeral]
  split
  · exact List.cons_ne_nil _ _
  · exact Nat.toDigits_ne_nil

/-- The digits end where no digit follows. -/
private theorem digits_append {ds : List Char} (hds : ∀ c ∈ ds, c.isDigit = true)
    (hrest : ∀ c ∈ rest.head?, c.isDigit = false) :
    (ds ++ rest).takeWhile Char.isDigit = ds ∧ (ds ++ rest).dropWhile Char.isDigit = rest := by
  rw [List.takeWhile_append_of_pos hds, List.dropWhile_append_of_pos hds]
  cases rest with
  | nil => simp
  | cons c rest =>
    have hc : ¬ c.isDigit = true := by simp [hrest c rfl]
    rw [List.takeWhile_cons_of_neg hc, List.dropWhile_cons_of_neg hc, List.append_nil]
    exact ⟨rfl, rfl⟩

/-- **Round trip**: what `printf` has written is read back, up to where no digit follows. -/
theorem number_append {gap : List Char} (z : ℤ) (hgap : ∀ c ∈ gap, isSpace c = true)
    (hrest : ∀ c ∈ rest.head?, c.isDigit = false) :
    number (gap ++ (numeral z ++ rest)) = (some z, rest) := by
  have hdrop : (gap ++ (numeral z ++ rest)).dropWhile isSpace = numeral z ++ rest := by
    obtain ⟨c, cs, hcs⟩ := List.exists_cons_of_ne_nil (numeral_ne_nil z)
    have hc : isSpace c = false := isSpace_of_mem_numeral (z := z) (by simp [hcs])
    rw [List.dropWhile_append_of_pos hgap, hcs, List.cons_append,
      List.dropWhile_cons_of_neg (by simp [hc])]
  obtain ⟨ds, hds⟩ : ∃ ds, ds = Nat.toDigits 10 z.natAbs := ⟨_, rfl⟩
  have hne : ds ≠ [] := by
    rw [hds]
    exact Nat.toDigits_ne_nil
  have hdigits : ∀ c ∈ ds, c.isDigit = true := fun c hc => isDigit_of_mem (hds ▸ hc)
  have hvalue : Nat.ofDigitChars 10 ds 0 = z.natAbs := by
    rw [hds, Nat.ofDigitChars_toDigits (by decide) (by decide)]
  have hempty : ds.isEmpty = false := by simpa using hne
  obtain ⟨htake, hleft⟩ := digits_append hdigits hrest
  by_cases hz : z < 0
  · have hsign : sign (numeral z ++ rest) = (true, ds ++ rest) := by
      rw [numeral, if_pos hz, ← hds]
      rfl
    simp only [number, hdrop, hsign, htake, hleft, hempty, hvalue]
    simp only [Bool.false_eq_true, if_false, if_true, Prod.mk.injEq, Option.some.injEq, and_true]
    omega
  · have hsign : sign (numeral z ++ rest) = (false, ds ++ rest) := by
      obtain ⟨c, cs, hcs⟩ := List.exists_cons_of_ne_nil hne
      rw [numeral, if_neg hz, ← hds, hcs, List.cons_append]
      exact sign_of_isDigit (hdigits c (by simp [hcs]))
    simp only [number, hdrop, hsign, htake, hleft, hempty, hvalue]
    simp only [Bool.false_eq_true, if_false, Prod.mk.injEq, Option.some.injEq, and_true]
    omega

/-- The integer conversions read a numeral that is the first word. -/
theorem number_of_words {z : ℤ} (h : words cs = numeral z :: ws) :
    ∃ rest, number cs = (some z, rest) ∧ words rest = ws := by
  obtain ⟨rest, hstr, hws⟩ := str_of_words h
  obtain ⟨gap, rfl, hgap, -, -, hrest⟩ := str_eq_some hstr
  refine ⟨rest, number_append z hgap fun c hc => ?_, hws⟩
  by_contra hdigit
  rw [Bool.not_eq_false] at hdigit
  exact absurd (hrest c hc) (by simp [isSpace_of_isDigit hdigit])

private theorem length_sign (cs : List Char) : (sign cs).2.length ≤ cs.length := by
  unfold sign
  split <;> simp

/-- The integer conversions leave a part of the text. -/
private theorem length_number (cs : List Char) : (number cs).2.length ≤ cs.length := by
  have hspace := (List.dropWhile_suffix (l := cs) isSpace).length_le
  have hsign := length_sign (cs.dropWhile isSpace)
  have hdigits := (List.dropWhile_suffix (l := (sign (cs.dropWhile isSpace)).2)
    Char.isDigit).length_le
  exact hdigits.trans (hsign.trans hspace)

/-! ### Files of keywords -/

section Keywords

variable {σ ε : Type} {body : List Char → List Char → σ → Option (σ × List Char)}

/-- `while (fscanf(file, "%s", word) != EOF)` with a body that may read on, or fault. -/
def readAll (body : List Char → List Char → σ → Option (σ × List Char)) :
    ℕ → List Char → σ → Option σ
  | 0, _, _ => none
  | fuel + 1, cs, s =>
    match str cs with
    | none => some s
    | some (w, rest) => (body w rest s).bind fun x => readAll body fuel x.2 x.1

/-- The loop reads the words `ws` and updates the state by `f`. -/
def Consumes (body : List Char → List Char → σ → Option (σ × List Char)) (ws : List (List Char))
    (f : σ → σ) : Prop :=
  ∀ cs more s fuel, words cs = ws ++ more → cs.length < fuel →
    ∃ cs' fuel', words cs' = more ∧ cs'.length < fuel' ∧
      readAll body fuel cs s = readAll body fuel' cs' (f s)

namespace Consumes

variable {f f' : σ → σ} {vs : List (List Char)}

/-- One round of the loop: the body is given the first of the words and reads the others. -/
private theorem of_body (h : ∀ rest more s, words rest = vs ++ more →
    ∃ rest', body w rest s = some (f s, rest') ∧ words rest' = more ∧
      rest'.length ≤ rest.length) : Consumes body (w :: vs) f := by
  intro cs more s fuel hcs hfuel
  obtain ⟨fuel, rfl⟩ := Nat.exists_eq_add_one_of_ne_zero (Nat.ne_of_gt (Nat.zero_lt_of_lt hfuel))
  obtain ⟨rest, hstr, hrest⟩ := str_of_words hcs
  obtain ⟨rest', hbody, hmore, hlen⟩ := h rest more s hrest
  have hlt := length_of_str hstr
  refine ⟨rest', fuel, hmore, by omega, ?_⟩
  simp only [readAll, hstr, hbody, Option.bind_some]

/-- A body that reads nothing more. -/
theorem word (h : ∀ rest s, body w rest s = some (f s, rest)) : Consumes body [w] f :=
  of_body fun rest _ s hrest => ⟨rest, h rest s, hrest, le_rfl⟩

/-- A body that reads one string more. -/
theorem str {v : List Char}
    (h : ∀ cs rest s, Scan.str cs = some (v, rest) → body w cs s = some (f s, rest)) :
    Consumes body [w, v] f := by
  refine of_body fun cs more s hcs => ?_
  obtain ⟨rest, hstr, hmore⟩ := str_of_words hcs
  exact ⟨rest, h cs rest s hstr, hmore, (length_of_str hstr).le⟩

/-- A body that reads one number more. -/
theorem number {z : ℤ}
    (h : ∀ cs rest s, Scan.number cs = (some z, rest) → body w cs s = some (f s, rest)) :
    Consumes body [w, numeral z] f := by
  refine of_body fun cs more s hcs => ?_
  obtain ⟨rest, hnumber, hmore⟩ := number_of_words hcs
  refine ⟨rest, h cs rest s hnumber, hmore, ?_⟩
  have hlen := length_number cs
  rwa [hnumber] at hlen

/-- Words after words. -/
theorem append {ws' : List (List Char)} (h : Consumes body ws f) (h' : Consumes body ws' f') :
    Consumes body (ws ++ ws') (f' ∘ f) := by
  intro cs more s fuel hcs hfuel
  rw [List.append_assoc] at hcs
  obtain ⟨cs₁, fuel₁, hcs₁, hfuel₁, hrun₁⟩ := h cs _ s fuel hcs hfuel
  obtain ⟨cs₂, fuel₂, hcs₂, hfuel₂, hrun₂⟩ := h' cs₁ more (f s) fuel₁ hcs₁ hfuel₁
  exact ⟨cs₂, fuel₂, hcs₂, hfuel₂, hrun₁.trans hrun₂⟩

end Consumes

/-- **Files of entries.** A file whose words are those of a list of entries is read entry by
entry. -/
theorem readAll_eq {wordsOf : ε → List (List Char)} {assign : ε → σ → σ} {entries : List ε}
    (h : ∀ e ∈ entries, Consumes body (wordsOf e) (assign e))
    (hcs : words cs = entries.flatMap wordsOf) {fuel : ℕ} (hfuel : cs.length < fuel) (s : σ) :
    readAll body fuel cs s = some (entries.foldl (fun s e => assign e s) s) := by
  induction entries generalizing cs fuel s with
  | nil =>
    obtain ⟨fuel, rfl⟩ := Nat.exists_eq_add_one_of_ne_zero (Nat.ne_of_gt (Nat.zero_lt_of_lt hfuel))
    rw [readAll, str_of_words_nil hcs]
    rfl
  | cons e entries ih =>
    rw [List.flatMap_cons] at hcs
    obtain ⟨cs', fuel', hcs', hfuel', hrun⟩ := h e (by simp) cs _ s fuel hcs hfuel
    rw [hrun]
    exact ih (fun e he => h e (List.mem_cons_of_mem _ he)) hcs' hfuel' _

end Keywords

end Scan
