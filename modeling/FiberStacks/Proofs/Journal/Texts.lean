import FiberStacks.Proofs.Journal.Reader
import Mathlib.Algebra.Order.Ring.Rat
import Mathlib.Data.List.TakeDrop
import Mathlib.Data.List.TakeWhile
import Mathlib.Tactic.Common

/-!
# Numbers and strings in JSON

A number in decimal is a JSON number and is read back as itself. What a text is written as in
quotes has no control characters and is read back as the text, whatever characters it has.
-/

namespace FiberStacks.Json

/-! ### Numbers -/

theorem exists_toDigits_eq_cons {n : Nat} (hn : 0 < n) :
    ∃ c cs, Nat.toDigits 10 n = c :: cs ∧ c ≠ '0' := by
  induction n using Nat.strongRecOn with
  | ind n ih =>
    by_cases hlt : n < 10
    · have hdigit : ∀ n < 10, 0 < n → n.digitChar ≠ '0' := by decide
      exact ⟨n.digitChar, [], Nat.toDigits_of_lt_base hlt, hdigit n hlt hn⟩
    -- The digits of `n / 10` stand in front, and it is not zero either.
    · obtain ⟨c, cs, heq, hne⟩ := ih (n / 10) (by omega) (by omega)
      refine ⟨c, cs ++ [(n % 10).digitChar], ?_, hne⟩
      rw [Nat.toDigits_of_base_le (by decide) (Nat.le_of_not_lt hlt), heq, List.cons_append]

/-- The digits of a number have no leading zero. -/
theorem whole?_toDigits (n : Nat) : whole? (Nat.toDigits 10 n) = some (Nat.toDigits 10 n) := by
  rcases n.eq_zero_or_pos with rfl | hn
  · rfl
  · obtain ⟨c, cs, heq, hne⟩ := exists_toDigits_eq_cons hn
    rw [heq]
    unfold whole?
    split <;> simp_all

theorem span_isDigit_toDigits (n : Nat) :
    (Nat.toDigits 10 n).span Char.isDigit = (Nat.toDigits 10 n, []) := by
  have hdigits : ∀ c ∈ Nat.toDigits 10 n, c.isDigit = true :=
    fun c hc => Nat.isDigit_of_mem_toDigits (by decide) (by decide) hc
  rw [List.span_eq_takeWhile_dropWhile, List.takeWhile_eq_self_iff.mpr hdigits,
    List.dropWhile_eq_nil_iff.mpr hdigits]

theorem magnitude?_toDigits (n : Nat) : magnitude? (Nat.toDigits 10 n) = some (n : Rat) := by
  unfold magnitude?
  rw [span_isDigit_toDigits]
  simp [whole?_toDigits, fraction?, exponent?, Nat.ofDigitChars_ten_toDigits]

theorem number?_toDigits (n : Nat) : number? (Nat.toDigits 10 n) = some (n : Rat) := by
  rw [← magnitude?_toDigits]
  unfold number?
  split
  · next cs heq =>
    have hminus : '-' ∈ Nat.toDigits 10 n := heq ▸ List.mem_cons_self
    exact absurd (Nat.isDigit_of_mem_toDigits (by decide) (by decide) hminus) (by decide)
  · rfl

theorem toList_repr_ofNat (n : Nat) : (Int.ofNat n).repr.toList = Nat.toDigits 10 n :=
  Nat.toList_repr

theorem toList_repr_negSucc (n : Nat) :
    (Int.negSucc n).repr.toList = '-' :: Nat.toDigits 10 (n + 1) := by
  simp [Int.repr, String.toList_append, Nat.toList_repr]

theorem number?_repr (n : Int) : number? n.repr.toList = some (n : Rat) := by
  cases n with
  | ofNat n =>
    rw [toList_repr_ofNat]
    exact number?_toDigits n
  | negSucc n =>
    rw [toList_repr_negSucc]
    simp only [number?, magnitude?_toDigits, Option.map_some]
    push_cast
    rfl

theorem mem_repr {n : Int} {c : Char} (hc : c ∈ n.repr.toList) : c = '-' ∨ c.isDigit = true := by
  have hdigit : ∀ k, c ∈ Nat.toDigits 10 k → c.isDigit = true :=
    fun k hk => Nat.isDigit_of_mem_toDigits (by decide) (by decide) hk
  cases n with
  | ofNat n =>
    rw [toList_repr_ofNat] at hc
    exact .inr (hdigit n hc)
  | negSucc n =>
    rw [toList_repr_negSucc] at hc
    exact (List.mem_cons.mp hc).imp_right (hdigit (n + 1))

/-- No number is written as one of the three names. -/
theorem scalar?_of_number? {word : List Char} {q : Rat} (h : number? word = some q) :
    scalar? word = some (.number q) := by
  have hnames : ∀ name, number? name = none → word ≠ name := by
    rintro name hnone rfl
    cases hnone.symm.trans h
  unfold scalar?
  rw [if_neg (hnames _ rfl), if_neg (hnames _ rfl), if_neg (hnames _ rfl), h, Option.map_some]

/-! ### Strings -/

theorem hexValue?_digitChar : ∀ n < 16, hexValue? n.digitChar = some n := by decide

/-- Four digits of a number in 16 bits are read back as it. -/
theorem units?_fourDigits {n : Nat} (hn : n < 2 ^ 16) (cs : List Char) :
    units? ('\\' :: 'u' :: fourDigits n ++ cs) = (units? cs).map (n :: ·) := by
  have hsum : ((n / 4096 % 16 * 16 + n / 256 % 16) * 16 + n / 16 % 16) * 16 + n % 16 = n := by
    omega
  have hdigit : ∀ k, hexValue? (k % 16).digitChar = some (k % 16) :=
    fun k => hexValue?_digitChar _ (Nat.mod_lt k (by decide))
  simp only [fourDigits, List.map_cons, List.map_nil, List.cons_append, List.nil_append, units?,
    hdigit]
  exact congrArg (fun m => (units? cs).map (m :: ·)) hsum

/-- A character stands behind a backslash under one letter or with four digits, or as it is. -/
theorem escapeChar_cases (c : Char) :
    (∃ letter, shortEscape? letter = some c ∧ escapeChar c = ['\\', letter]) ∨
      (isControl c = true ∧ escapeChar c = '\\' :: 'u' :: fourDigits c.toNat) ∨
      (c ≠ '"' ∧ c ≠ '\\' ∧ isControl c = false ∧ escapeChar c = [c]) := by
  by_cases hquote : c = '"'
  · subst hquote
    exact .inl ⟨'"', rfl, rfl⟩
  by_cases hbackslash : c = '\\'
  · subst hbackslash
    exact .inl ⟨'\\', rfl, rfl⟩
  by_cases hline : c = '\n'
  · subst hline
    exact .inl ⟨'n', rfl, rfl⟩
  by_cases hreturn : c = '\r'
  · subst hreturn
    exact .inl ⟨'r', rfl, rfl⟩
  by_cases htab : c = '\t'
  · subst htab
    exact .inl ⟨'t', rfl, rfl⟩
  refine .inr ?_
  unfold escapeChar
  rw [if_neg hquote, if_neg hbackslash, if_neg hline, if_neg hreturn, if_neg htab]
  cases hcontrol : isControl c
  · exact .inr ⟨hquote, hbackslash, rfl, rfl⟩
  · exact .inl ⟨rfl, rfl⟩

theorem toNat_lt_of_isControl {c : Char} (h : isControl c = true) : c.toNat < 0xa0 := by
  simp only [isControl, Bool.or_eq_true, Bool.and_eq_true, decide_eq_true_eq] at h
  omega

theorem le_toNat_of_not_isControl {c : Char} (h : isControl c = false) : 0x20 ≤ c.toNat := by
  simp only [isControl, Bool.or_eq_false_iff, decide_eq_false_iff_not] at h
  omega

theorem units?_letter {c letter : Char} (h : shortEscape? letter = some c) (cs : List Char) :
    units? ('\\' :: letter :: cs) = (units? cs).map (c.toNat :: ·) := by
  have hu : letter ≠ 'u' := by
    rintro rfl
    cases h
  rw [units?, h]
  · rfl
  · exact fun _ _ _ _ _ heq => absurd heq hu

theorem units?_plain {c : Char} (hquote : c ≠ '"') (hbackslash : c ≠ '\\')
    (hle : 0x20 ≤ c.toNat) (cs : List Char) :
    units? (c :: cs) = (units? cs).map (c.toNat :: ·) := by
  have hplain : ¬(c = '\\' ∨ c = '"' ∨ c.toNat < 0x20) := by
    simp only [hquote, hbackslash, false_or]
    omega
  rw [units?, if_neg hplain]
  · exact fun _ _ _ _ _ heq => absurd heq hbackslash
  · exact fun _ _ heq => absurd heq hbackslash

theorem units?_escapeChar (c : Char) (cs : List Char) :
    units? (escapeChar c ++ cs) = (units? cs).map (c.toNat :: ·) := by
  rcases escapeChar_cases c with
    ⟨letter, hletter, heq⟩ | ⟨hcontrol, heq⟩ | ⟨hquote, hbackslash, hcontrol, heq⟩
  · rw [heq]
    exact units?_letter hletter cs
  · rw [heq]
    exact units?_fourDigits ((toNat_lt_of_isControl hcontrol).trans (by decide)) cs
  · rw [heq]
    exact units?_plain hquote hbackslash (le_toNat_of_not_isControl hcontrol) cs

theorem units?_escape (text : List Char) :
    units? (text.flatMap escapeChar) = some (text.map Char.toNat) := by
  induction text with
  | nil => rfl
  | cons c text ih => rw [List.flatMap_cons, units?_escapeChar, ih, Option.map_some, List.map_cons]

/-- No character is half of one. -/
theorem not_isHalf (c : Char) : isHighHalf c.toNat = false ∧ isLowHalf c.toNat = false := by
  have hvalid : c.toNat < 0xd800 ∨ 0xdfff < c.toNat ∧ c.toNat < 0x110000 := c.valid
  simp only [isHighHalf, isLowHalf, Bool.and_eq_false_iff, decide_eq_false_iff_not]
  omega

theorem join?_map_toNat (text : List Char) : join? (text.map Char.toNat) = some text := by
  induction text with
  | nil => rfl
  | cons c text ih =>
    obtain ⟨hhigh, hlow⟩ := not_isHalf c
    cases text with
    | nil => simp [join?, hhigh, hlow]
    | cons d text =>
      simp only [List.map_cons] at ih ⊢
      simp [join?, hhigh, hlow, ih]

theorem string?_escape (text : String) :
    string? (text.toList.flatMap escapeChar) = some (.string text) := by
  rw [string?, units?_escape, Option.bind_some, join?_map_toNat, Option.map_some,
    String.ofList_toList]

theorem mem_fourDigits {n : Nat} {c : Char} (hc : c ∈ fourDigits n) :
    ∃ k < 16, c = k.digitChar := by
  simp only [fourDigits, List.map_cons, List.map_nil, List.mem_cons, List.not_mem_nil,
    or_false] at hc
  rcases hc with rfl | rfl | rfl | rfl <;> exact ⟨_, Nat.mod_lt _ (by decide), rfl⟩

theorem digitChar_plain : ∀ k < 16,
    k.digitChar ≠ '"' ∧ k.digitChar ≠ '\\' ∧ isControl k.digitChar = false := by decide

theorem isControl_of_shortEscape? {c letter : Char} (h : shortEscape? letter = some c) :
    isControl letter = false := by
  unfold shortEscape? at h
  split at h <;> first | rfl | cases h

theorem isControl_of_mem_escapeChar {c d : Char} (hd : d ∈ escapeChar c) : isControl d = false := by
  rcases escapeChar_cases c with
    ⟨letter, hletter, heq⟩ | ⟨-, heq⟩ | ⟨-, -, hcontrol, heq⟩
  · rw [heq] at hd
    rcases List.mem_cons.mp hd with rfl | hd
    · rfl
    · rw [List.mem_singleton.mp hd]
      exact isControl_of_shortEscape? hletter
  · rw [heq] at hd
    rcases List.mem_cons.mp hd with rfl | hd
    · rfl
    rcases List.mem_cons.mp hd with rfl | hd
    · rfl
    obtain ⟨k, hk, rfl⟩ := mem_fourDigits hd
    exact (digitChar_plain k hk).2.2
  · rw [heq] at hd
    rw [List.mem_singleton.mp hd]
    exact hcontrol

end FiberStacks.Json
