import Dataflow.Decimal.Positional
import Dataflow.Decimal.Reading
import Dataflow.Proofs.Text.Blank
import Mathlib.Data.Nat.Digits.Defs
import Mathlib.Data.Set.List

/-!
# Numerals

A numeral is an optional sign and one or more digits, and it denotes an integer.  Reading gives a number exactly for the
texts that are numerals, and it is the number that the numeral denotes; what is written of an integer is a numeral of it
with nothing to spare.

* `readInt?_eq_some_iff`, `readInt64?_eq_some_iff`: the texts that are read as integers;
* `exists_plain`: the texts that are written for integers.
-/

namespace Dataflow.Decimal

/-! ### Digits -/

/-- The ASCII character of a digit. -/
def digitChar (d : Fin 10) : Char := Nat.digitChar d

private theorem isDigit_digitChar (d : Fin 10) : isDigit (digitChar d) = true := by
  decide +revert

private theorem digitValue_digitChar (d : Fin 10) : digitValue (digitChar d) = d :=
  Nat.toNat_digitChar_sub_48_of_lt_ten d.isLt

private theorem isDigit_iff {c : Char} : isDigit c = true ↔ ∃ d, digitChar d = c := by
  constructor
  · intro h
    have hrange : 48 ≤ c.toNat ∧ c.toNat ≤ 57 := by
      simpa [isDigit, Char.le_def, UInt32.le_iff_toNat_le] using h
    have hlt : c.toNat - 48 < 10 := by omega
    refine ⟨⟨c.toNat - 48, hlt⟩, Char.toNat_inj.1 ?_⟩
    exact (Nat.toNat_digitChar_of_lt_ten hlt).trans (by omega)
  · rintro ⟨d, rfl⟩
    exact isDigit_digitChar d

/-- The number that digits denote, the units last. -/
def magnitude (digits : List (Fin 10)) : Nat := Nat.ofDigits 10 (digits.reverse.map Fin.val)

private theorem valueOfDigits_map (digits : List (Fin 10)) :
    valueOfDigits (digits.map digitChar) = magnitude digits := by
  unfold valueOfDigits magnitude
  rw [Nat.ofDigits_eq_foldr, List.foldl_map, List.foldr_map, List.foldr_reverse]
  simp only [digitValue_digitChar, Nat.add_comm, Nat.cast_id]

/-- Reading accepts one or more digits and nothing else. -/
theorem readNat?_eq_some_iff {s : List Char} {n : Nat} :
    readNat? s = some n ↔ ∃ digits, digits ≠ [] ∧ digits.map digitChar = s ∧ magnitude digits = n := by
  unfold readNat?
  constructor
  · intro h
    split at h
    · next hs =>
      have hrange : s ∈ Set.range (List.map digitChar) := by
        rw [Set.range_list_map]
        exact fun c hc => isDigit_iff.1 (List.all_eq_true.1 hs.2 c hc)
      obtain ⟨digits, rfl⟩ := hrange
      refine ⟨digits, fun hnil => hs.1 (by rw [hnil]; rfl), rfl, ?_⟩
      rw [← valueOfDigits_map]
      exact Option.some.inj h
    · cases h
  · rintro ⟨digits, hne, rfl, rfl⟩
    rw [if_pos, valueOfDigits_map]
    refine ⟨by simpa using hne, List.all_eq_true.2 fun c hc => ?_⟩
    obtain ⟨d, -, rfl⟩ := List.mem_map.1 hc
    exact isDigit_digitChar d

/-! ### Numerals -/

inductive Sign where
  | plus
  | minus
  deriving DecidableEq

def Sign.char : Sign → Char
  | plus => '+'
  | minus => '-'

/-- An integer as it may be written: at most one sign, and one or more digits, zeros in front of others included. -/
structure Numeral where
  sign : Option Sign
  digits : List (Fin 10)
  digits_ne_nil : digits ≠ []

namespace Numeral

def chars (n : Numeral) : List Char := n.sign.toList.map Sign.char ++ n.digits.map digitChar

/-- The integer that the numeral denotes. -/
def number (n : Numeral) : Int := if n.sign = some .minus then -magnitude n.digits else magnitude n.digits

/-- There is nothing to spare in the numeral: no plus, no zero in front of other digits, no minus in front of zero. -/
def IsPlain (n : Numeral) : Prop :=
  n.sign ≠ some .plus ∧ (n.digits.head? = some 0 → n.digits = [0] ∧ n.sign = none)

end Numeral

/-! ### Reading -/

private theorem readInt?_eq (s : List Char) :
    readInt? s = (readNat? (splitSign s).2).map fun m : Nat => if (splitSign s).1 then -(m : Int) else m := by
  unfold readInt?
  obtain ⟨negative, digits⟩ := splitSign s
  dsimp only
  cases readNat? digits <;> rfl

private theorem digitChar_ne_sign (d : Fin 10) : digitChar d ≠ '-' ∧ digitChar d ≠ '+' := by
  decide +revert

private theorem splitSign_chars (n : Numeral) :
    splitSign n.chars = (decide (n.sign = some .minus), n.digits.map digitChar) := by
  obtain ⟨sign, digits, hne⟩ := n
  cases sign with
  | none =>
    -- The first character is a digit, so that there is no sign to take off.
    cases digits with
    | nil => exact absurd rfl hne
    | cons d digits =>
      obtain ⟨hminus, hplus⟩ := digitChar_ne_sign d
      simp [Numeral.chars, splitSign, hminus, hplus]
  | some sign => cases sign <;> rfl

private theorem exists_sign (s : List Char) : ∃ sign : Option Sign,
    sign.toList.map Sign.char ++ (splitSign s).2 = s ∧ ((splitSign s).1 = true ↔ sign = some .minus) := by
  unfold splitSign
  split
  · exact ⟨some .minus, rfl, by simp⟩
  · exact ⟨some .plus, rfl, by simp⟩
  · exact ⟨none, rfl, by simp⟩

/-- The texts that read as integers are the numerals, and they read as what they denote. -/
theorem readInt?_eq_some_iff {s : List Char} {k : Int} :
    readInt? s = some k ↔ ∃ n : Numeral, n.chars = s ∧ n.number = k := by
  rw [readInt?_eq]
  constructor
  · intro h
    obtain ⟨sign, hs, hminus⟩ := exists_sign s
    obtain ⟨m, hm, rfl⟩ := Option.map_eq_some_iff.1 h
    obtain ⟨digits, hne, hdigits, rfl⟩ := readNat?_eq_some_iff.1 hm
    refine ⟨⟨sign, digits, hne⟩, ?_, ?_⟩
    · rw [Numeral.chars, hdigits, hs]
    · simp only [Numeral.number, hminus]
  · rintro ⟨n, rfl, rfl⟩
    have hread : readNat? (n.digits.map digitChar) = some (magnitude n.digits) :=
      readNat?_eq_some_iff.2 ⟨n.digits, n.digits_ne_nil, rfl, rfl⟩
    rw [splitSign_chars, hread]
    simp only [Option.map_some, decide_eq_true_eq, Numeral.number]

/-- The integer is in the range of 64 bits, the sign among them. -/
def FitsInt64 (k : Int) : Prop := -2 ^ 63 ≤ k ∧ k < 2 ^ 63

/-- A number fits into 64 bits exactly if it is that of a 64-bit integer. -/
theorem fitsInt64_iff {k : Int} : FitsInt64 k ↔ ∃ i : Int64, i.toInt = k := by
  constructor
  · rintro ⟨hlow, hhigh⟩
    exact ⟨Int64.ofInt k, Int64.toInt_ofInt_of_le hlow hhigh⟩
  · rintro ⟨i, rfl⟩
    exact ⟨i.le_toInt, i.toInt_lt⟩

/-- Integers of 64 bits are read from the numerals that denote them, and from nothing else. -/
theorem readInt64?_eq_some_iff {s : List Char} {i : Int64} :
    readInt64? s = some i ↔ ∃ n : Numeral, n.chars = s ∧ n.number = i.toInt := by
  rw [← readInt?_eq_some_iff]
  unfold readInt64?
  constructor
  · intro h
    obtain ⟨k, hk, hi⟩ := Option.bind_eq_some_iff.1 h
    split at hi
    · next hfits => rw [hk, ← Option.some.inj hi, Int64.toInt_ofInt_of_le hfits.1 hfits.2]
    · cases hi
  · intro h
    obtain ⟨hlow, hhigh⟩ := fitsInt64_iff.2 ⟨i, rfl⟩
    rw [h, Option.bind_eq_bind, Option.bind_some, if_pos (by omega), Int64.ofInt_toInt]

/-! ### Writing -/

/-- Digits that have been written are read as the number that was written. -/
theorem readNat?_natDigits (n : Nat) : readNat? (natDigits n) = some n := by
  have hdigits : (natDigits n).all isDigit = true := by
    rw [List.all_eq_true]
    intro c hc
    simpa [Char.isDigit, isDigit, Char.le_def] using Nat.isDigit_of_mem_toDigits (by decide) (by decide) hc
  unfold readNat?
  rw [if_pos ⟨Nat.toDigits_ne_nil, hdigits⟩]
  exact congrArg some Nat.ofDigitChars_ten_toDigits

/-- No number but zero is written with a zero in front. -/
theorem eq_zero_of_head_natDigits {n : Nat} (h : (natDigits n).head? = some '0') : n = 0 := by
  induction n using Nat.strong_induction_on with
  | _ n ih =>
    unfold natDigits at h ih
    rw [Nat.toDigits_eq_if (by decide)] at h
    split at h
    · simpa using h
    · next hlarge =>
      have hfront : (Nat.toDigits 10 (n / 10)).head? = some '0' := by
        cases hfront : Nat.toDigits 10 (n / 10) with
        | nil => exact absurd hfront Nat.toDigits_ne_nil
        | cons c rest => simpa [hfront] using h
      have := ih (n / 10) (by omega) hfront
      omega

private theorem eq_of_map_eq_zero {digits : List (Fin 10)} (h : digits.map digitChar = ['0']) :
    digits = [0] := by
  obtain ⟨d, rest, rfl, hd, hrest⟩ := List.map_eq_cons_iff.1 h
  have hzero : d = 0 := Fin.ext (Nat.digitChar_eq_zero.1 hd)
  rw [hzero, List.map_eq_nil_iff.1 hrest]

/-- What is written of an integer is a numeral of it with nothing to spare. -/
theorem exists_plain (k : Int) : ∃ n : Numeral, n.IsPlain ∧ n.number = k ∧ n.chars = intDigits k := by
  obtain ⟨digits, hne, hchars, hvalue⟩ := readNat?_eq_some_iff.1 (readNat?_natDigits k.natAbs)
  have hzero : digits.head? = some 0 → digits = [0] ∧ k = 0 := by
    intro h
    have habs : k.natAbs = 0 := by
      refine eq_zero_of_head_natDigits ?_
      rw [← hchars, List.head?_map, h]
      rfl
    rw [habs] at hchars
    exact ⟨eq_of_map_eq_zero hchars, Int.natAbs_eq_zero.1 habs⟩
  by_cases hneg : k < 0
  · refine ⟨⟨some .minus, digits, hne⟩, ⟨nofun, fun h => ?_⟩, ?_, ?_⟩
    · have := (hzero h).2
      omega
    · change -(magnitude digits : Int) = k
      omega
    · rw [intDigits, if_pos hneg, ← hchars]
      rfl
  · refine ⟨⟨none, digits, hne⟩, ⟨nofun, fun h => ⟨(hzero h).1, rfl⟩⟩, ?_, ?_⟩
    · change (magnitude digits : Int) = k
      omega
    · rw [intDigits, if_neg hneg, ← hchars]
      rfl

/-! ### Blanks -/

private theorem isBlank_digitChar (d : Fin 10) : Text.isBlank (digitChar d) = false := by
  decide +revert

private theorem isBlank_of_mem_chars (n : Numeral) {c : Char} (h : c ∈ n.chars) : Text.isBlank c = false := by
  rcases List.mem_append.1 h with hs | hd
  · obtain ⟨sign, -, rfl⟩ := List.mem_map.1 hs
    cases sign <;> rfl
  · obtain ⟨d, -, rfl⟩ := List.mem_map.1 hd
    exact isBlank_digitChar d

/-- There is nothing to trim from a numeral. -/
theorem Numeral.isBare_chars (n : Numeral) : Text.IsBare n.chars where
  head _ h := isBlank_of_mem_chars n (List.mem_of_mem_head? h)
  last _ h := isBlank_of_mem_chars n (List.mem_of_getLast? h)

end Dataflow.Decimal
