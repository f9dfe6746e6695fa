import Dataflow.Cast.Registry
import Dataflow.Proofs.Decimal.Numeral

/-!
# Integers as texts

The standard conversions take integers to texts and texts to integers.  An integer becomes a numeral of it with nothing
to spare, and it comes back from that numeral, also with blanks around it.  Of all texts, those that are numerals of
integers of 64 bits once they are trimmed become these integers, and any other becomes 0.

* `Converts`: what a conversion of a registry makes of a value;
* `standard_keepsIntegers`: what the two conversions make of an integer and of a text.
-/

namespace Dataflow.CastRegistry

open Decimal (Numeral FitsInt64)
open Text (AllBlank Pads)

/-- The registry's conversion between the two types makes the second value of the first: the rule of its node gives it
for a parent that holds the first, whatever else the rule sees. -/
def Converts (r : CastRegistry) (source target : DataType) (v w : Value) : Prop :=
  ∃ cast rule, r.rule? source target = some cast ∧ cast.conversion.behavior = .value rule ∧
    ∀ (arg : Arg) (rest : List Arg) (current : Option Value), arg.value? = some v →
      rule.compute (arg :: rest) current = some w

private theorem converts_map {r : CastRegistry} {source target : DataType} {weight? : Option Nat} {name : String}
    {f : Value → Value} (h : r.rule? source target = some ⟨weight?, .map name f⟩) (v : Value) :
    r.Converts source target v (f v) := by
  refine ⟨_, _, h, rfl, fun arg rest current hv => ?_⟩
  change arg.value?.map f = some (f v)
  rw [hv]
  rfl

/-- Integers are converted to texts by writing them. -/
theorem standard_text (i : Int64) : standard.Converts .int .text (.int i) (.text (intText i.toInt)) :=
  converts_map (f := Conversion.toTextValue) rfl (.int i)

/-- Texts are converted to integers by reading what is between their blanks, and to 0 if it cannot be read. -/
theorem standard_int (s : String) :
    standard.Converts .text .int (.text s) (.int ((Decimal.readInt64? (Text.trim s.toList)).getD 0)) :=
  converts_map (f := Conversion.textToInt) rfl (.text s)

/-- What conversions between integers and texts make of an integer and of a text. -/
structure KeepsIntegers (r : CastRegistry) (i : Int64) (s : String) : Prop where
  /-- The integer becomes a plain numeral of it, which becomes the integer again, also with blanks around it. -/
  back : ∃ t : String, r.Converts .int .text (.int i) (.text t) ∧
    (∃ n : Numeral, n.IsPlain ∧ n.number = i.toInt ∧ n.chars = t.toList) ∧
    ∀ u w : String, AllBlank u.toList → AllBlank w.toList → r.Converts .text .int (.text (u ++ t ++ w)) (.int i)
  /-- Numerals between blanks become what they denote. -/
  numeral : ∀ n : Numeral, Pads s.toList n.chars → FitsInt64 n.number →
    ∃ k : Int64, k.toInt = n.number ∧ r.Converts .text .int (.text s) (.int k)
  /-- A text that is no numeral between blanks, or one of an integer of more than 64 bits, becomes 0. -/
  other : (∀ n : Numeral, Pads s.toList n.chars → ¬ FitsInt64 n.number) → r.Converts .text .int (.text s) (.int 0)

private theorem standard_int_of_pads {n : Numeral} {s : String} {i : Int64} (h : Pads s.toList n.chars)
    (hi : n.number = i.toInt) : standard.Converts .text .int (.text s) (.int i) := by
  have hread : Decimal.readInt64? (Text.trim s.toList) = some i :=
    Decimal.readInt64?_eq_some_iff.2 ⟨n, (Text.trim_eq_iff.2 h).symm, hi⟩
  have hconv := standard_int s
  rw [hread] at hconv
  exact hconv

/-- The standard conversions write every integer so that it is read back, and read numerals only. -/
theorem standard_keepsIntegers (i : Int64) (s : String) : standard.KeepsIntegers i s where
  back := by
    obtain ⟨n, hplain, hnumber, hchars⟩ := Decimal.exists_plain i.toInt
    have htext : n.chars = (intText i.toInt).toList := by rw [intText, String.toList_ofList, hchars]
    refine ⟨intText i.toInt, standard_text i, ⟨n, hplain, hnumber, htext⟩, fun u w hu hw => ?_⟩
    refine standard_int_of_pads ⟨n.isBare_chars, u.toList, w.toList, hu, hw, ?_⟩ hnumber
    rw [String.toList_append, String.toList_append, htext]
  numeral n hpads hfits := by
    obtain ⟨k, hk⟩ := Decimal.fitsInt64_iff.1 hfits
    exact ⟨k, hk, standard_int_of_pads hpads hk.symm⟩
  other h := by
    have hnone : Decimal.readInt64? (Text.trim s.toList) = none := by
      refine Option.eq_none_iff_forall_ne_some.2 fun k hk => ?_
      obtain ⟨n, hchars, hnumber⟩ := Decimal.readInt64?_eq_some_iff.1 hk
      exact h n (Text.trim_eq_iff.1 hchars.symm) (Decimal.fitsInt64_iff.2 ⟨k, hnumber.symm⟩)
    have hconv := standard_int s
    rw [hnone] at hconv
    exact hconv

/-- The least integer, between a no-break space and an em space. -/
example : Conversion.textToInt (.text "\u00a0-9223372036854775808\u2003") = .int Int64.minValue := by cbv

/-- A sign and zeros in front are read; blanks inside, a sign alone and the first integer that is too large are not. -/
example : ["+007", "- 7", "-", "9223372036854775808"].map (fun s => Conversion.textToInt (.text s)) =
    [.int 7, .int 0, .int 0, .int 0] := by cbv

end Dataflow.CastRegistry
