import Mathlib

/-!
# Lines and numerals

Text is a list of characters. The functions are those of the standard library of
C++ on strings: `getline`, `find`, `substr`, `strtoull` and `stoull`, for numbers
of 64 bits. What they do to text that was printed is proved about the printed text
itself: a line and what follows it, a numeral and what follows it.

## What is proved

* `getlines_unlines` — reading lines that were written;
* `find_append`, `substr_append` — the part of a line up to a separator;
* `stoull_print` — reading a number that was printed.
-/

namespace SidleBaselines.Text

/-! ### Lines -/

/-- What the calls of `getline` read. The last line need not end. -/
def getlines : List Char → List (List Char)
  | [] => []
  | c :: cs =>
    if c = '\n' then [] :: getlines cs
    else match getlines cs with
      | [] => [[c]]
      | line :: lines => (c :: line) :: lines

/-- Lines as they are written. -/
def unlines (lines : List (List Char)) : List Char :=
  lines.flatMap fun line => line ++ ['\n']

theorem getlines_line (line rest : List Char) (h : '\n' ∉ line) :
    getlines (line ++ '\n' :: rest) = line :: getlines rest := by
  induction line with
  | nil => rw [List.nil_append, getlines, if_pos rfl]
  | cons c line ih =>
    rw [List.mem_cons, not_or] at h
    rw [List.cons_append, getlines, if_neg (Ne.symm h.1), ih h.2]

theorem getlines_unlines (lines : List (List Char)) (h : ∀ line ∈ lines, '\n' ∉ line) :
    getlines (unlines lines) = lines := by
  induction lines with
  | nil => rfl
  | cons line lines ih =>
    rw [unlines, List.flatMap_cons, List.append_assoc, List.singleton_append,
      getlines_line _ _ (h line List.mem_cons_self), ← unlines,
      ih fun l hl => h l (List.mem_cons_of_mem _ hl)]

/-! ### Parts of a line -/

/-- The largest `size_t`, which means that nothing was found. -/
def npos : ℕ :=
  2 ^ 64 - 1

/-- `s.find(c, pos)`. -/
def find (c : Char) (pos : ℕ) (s : List Char) : ℕ :=
  match (s.drop pos).findIdx? (· == c) with
  | none => npos
  | some i => pos + i

/-- `s.substr(pos, count)`, which throws when `pos` lies beyond the end. -/
def substr (pos count : ℕ) (s : List Char) : Option (List Char) :=
  if s.length < pos then none
  else some ((s.drop pos).take count)

theorem find_append (c : Char) (s t : List Char) (h : c ∉ t) (rest : List Char) :
    find c s.length (s ++ t ++ c :: rest) = s.length + t.length := by
  have hfind : (t ++ c :: rest).findIdx? (· == c) = some t.length := by
    rw [List.findIdx?_append, List.findIdx?_eq_none_iff.mpr, List.findIdx?_cons, if_pos (beq_self_eq_true c)]
    · simp
    · intro x hx
      refine beq_false_of_ne ?_
      rintro rfl
      exact h hx
  rw [find, List.append_assoc, List.drop_left, hfind]

theorem substr_append (s t rest : List Char) {count : ℕ} (h : count = t.length) :
    substr s.length count (s ++ t ++ rest) = some t := by
  rw [substr, if_neg (by simp), List.append_assoc, List.drop_left, h, List.take_left]

/-- To the end of the line. -/
theorem substr_npos (s t : List Char) (h : t.length ≤ npos) : substr s.length npos (s ++ t) = some t := by
  rw [substr, if_neg (by simp), List.drop_left, List.take_of_length_le h]

/-! ### Numerals -/

/-- `isspace`. -/
def isSpace (c : Char) : Bool :=
  c == ' ' || ('\t' ≤ c && c ≤ '\r')

/-- The sign, if there is one. -/
def sign : List Char → Bool × List Char
  | '-' :: cs => (true, cs)
  | '+' :: cs => (false, cs)
  | cs => (false, cs)

/-- The numeral at the beginning, if there is one, and if it is negated. -/
def numeral (s : List Char) : Option (Bool × ℕ) :=
  let (negated, rest) := sign (s.dropWhile isSpace)
  let digits := rest.takeWhile Char.isDigit
  if digits = [] then none
  else some (negated, Nat.ofDigitChars 10 digits 0)

/-- Negated in 64 bits if there was a minus. -/
def signed : Bool × ℕ → ℕ
  | (true, v) => (2 ^ 64 - v) % 2 ^ 64
  | (false, v) => v

/-- `strtoull(s, NULL, 10)`: 0 if there is no numeral, the largest number if it is too large. -/
def strtoull (s : List Char) : ℕ :=
  match numeral s with
  | none => 0
  | some n => if 2 ^ 64 ≤ n.2 then 2 ^ 64 - 1 else signed n

/-- `stoull(s)`, which throws in both cases. -/
def stoull (s : List Char) : Option ℕ :=
  match numeral s with
  | none => none
  | some n => if 2 ^ 64 ≤ n.2 then none else some (signed n)

/-- A number in decimal. -/
def print (n : ℕ) : List Char :=
  Nat.toDigits 10 n

theorem isDigit_of_mem_print {n : ℕ} {c : Char} (h : c ∈ print n) : c.isDigit = true :=
  Nat.isDigit_of_mem_toDigits (by omega) (by omega) h

/-- A character that is no digit is not printed. -/
theorem not_mem_print {n : ℕ} {c : Char} (h : c.isDigit = false) : c ∉ print n := by
  intro hmem
  exact absurd (isDigit_of_mem_print hmem) (by simp [h])

theorem isSpace_of_isDigit {c : Char} (h : c.isDigit = true) : isSpace c = false := by
  simp only [Char.isDigit, Bool.and_eq_true, decide_eq_true_eq, ge_iff_le, UInt32.le_iff_toNat_le] at h
  have hlow : 48 ≤ c.toNat := h.1
  simp only [isSpace, Bool.or_eq_false_iff, Bool.and_eq_false_iff, decide_eq_false_iff_not, beq_eq_false_iff_ne]
  refine ⟨?_, Or.inr ?_⟩
  · rintro rfl
    exact absurd hlow (by decide)
  · intro hle
    have hhigh : c.toNat ≤ 13 := hle
    omega

theorem sign_of_isDigit {c : Char} (h : c.isDigit = true) (cs : List Char) : sign (c :: cs) = (false, c :: cs) := by
  have hminus : c ≠ '-' := by
    rintro rfl
    cases h
  have hplus : c ≠ '+' := by
    rintro rfl
    cases h
  rw [sign]
  · exact fun _ heq => hminus (List.cons.inj heq).1
  · exact fun _ heq => hplus (List.cons.inj heq).1

/-- A number that was printed, before something that is no digit. -/
theorem numeral_print (n : ℕ) (rest : List Char) (h : ∀ c ∈ rest.head?, c.isDigit = false) :
    numeral (print n ++ rest) = some (false, n) := by
  have hne : print n ≠ [] := Nat.toDigits_ne_nil
  have hdigits : (print n ++ rest).takeWhile Char.isDigit = print n := by
    rw [List.takeWhile_append_of_pos fun c hc => isDigit_of_mem_print hc]
    have hrest : rest.takeWhile Char.isDigit = [] := by
      cases rest with
      | nil => rfl
      | cons c cs =>
        rw [List.takeWhile_cons, h c rfl]
        rfl
    rw [hrest, List.append_nil]
  have hsign : sign ((print n ++ rest).dropWhile isSpace) = (false, print n ++ rest) := by
    obtain ⟨c, cs, hcs⟩ := List.exists_cons_of_ne_nil hne
    have hdigit : c.isDigit = true := by
      refine isDigit_of_mem_print (n := n) ?_
      rw [hcs]
      exact List.mem_cons_self
    rw [hcs, List.cons_append, List.dropWhile_cons, isSpace_of_isDigit hdigit, if_neg Bool.false_ne_true,
      sign_of_isDigit hdigit]
  rw [numeral, hsign]
  simp only [hdigits]
  rw [if_neg hne, print, Nat.ofDigitChars_ten_toDigits]

theorem stoull_print {n : ℕ} (hn : n < 2 ^ 64) (rest : List Char) (h : ∀ c ∈ rest.head?, c.isDigit = false) :
    stoull (print n ++ rest) = some n := by
  rw [stoull, numeral_print n rest h]
  exact if_neg (Nat.not_le.mpr hn)

end SidleBaselines.Text
