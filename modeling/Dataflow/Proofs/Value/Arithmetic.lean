import Dataflow.Rule.Checked
import Mathlib.Algebra.BigOperators.Group.List.Basic
import Mathlib.Data.Int.ModEq
import Mathlib.Data.Set.List

/-!
# Integer arithmetic is exact modulo `2 ^ 64`

The arithmetic rules fold an operation over the integers that their arguments hold, and every step wraps around.  What
comes out is still the sum, the product or the difference of the integers modulo `2 ^ 64`, since every step keeps what
the integer so far stands for (`represents_foldl`).  Quotients do not agree with a modulus; for them the fold is that of
a division of integers (`quotient`).

* `ArithmeticOp.computeChecked_eq`: no rule makes the machine fault;
* `ArithmeticOp.isExact`: what the rules make of integers.
-/

namespace Dataflow

/-! ### Steps -/

/-- The integer of 64 bits is what is left of an integer that has been wrapped around. -/
def Represents (n : Int64) (k : Int) : Prop := n.toInt ≡ k [ZMOD 2 ^ 64]

namespace Represents

variable {n m : Int64} {k l : Int}

theorem toInt (n : Int64) : Represents n n.toInt := Int.ModEq.refl _

/-- An integer has just one representative. -/
theorem unique (h : Represents n k) (h' : Represents m k) : n = m := by
  have hmod : n.toInt ≡ m.toInt [ZMOD 2 ^ 64] := h.trans h'.symm
  have hn := n.le_toInt
  have hn' := n.toInt_lt
  have hm := m.le_toInt
  have hm' := m.toInt_lt
  rw [Int.modEq_iff_dvd] at hmod
  refine Int64.toInt_inj.1 ?_
  omega

/-- Wrapping an integer around leaves a representative of all integers that it agrees with. -/
theorem of_bmod (hn : n.toInt = k.bmod (2 ^ 64)) (h : k ≡ l [ZMOD 2 ^ 64]) : Represents n l := by
  unfold Represents
  rw [hn]
  exact Int.ModEq.trans Int.bmod_emod h

theorem add (h : Represents n k) (h' : Represents m l) : Represents (n + m) (k + l) :=
  of_bmod (Int64.toInt_add n m) (Int.ModEq.add h h')

theorem sub (h : Represents n k) (h' : Represents m l) : Represents (n - m) (k - l) :=
  of_bmod (Int64.toInt_sub n m) (Int.ModEq.sub h h')

theorem mul (h : Represents n k) (h' : Represents m l) : Represents (n * m) (k * l) :=
  of_bmod (Int64.toInt_mul n m) (Int.ModEq.mul h h')

end Represents

/-- Division of integers toward zero, in the range of 64 bits. -/
def quotient (k l : Int) : Int :=
  if l = 0 then 0 else if k = -2 ^ 63 ∧ l = -1 then -2 ^ 63 else k.tdiv l

private theorem toInt_onInt_div (a b : Int64) :
    (ArithmeticOp.div.onInt a b).toInt = quotient a.toInt b.toInt := by
  have hzero : b.toInt = 0 ↔ b = 0 := Int64.toInt_inj (y := 0)
  have hmin : a.toInt = -2 ^ 63 ↔ a = Int64.minValue := Int64.toInt_inj (y := Int64.minValue)
  have hneg : b.toInt = -1 ↔ b = -1 := Int64.toInt_inj (y := -1)
  unfold ArithmeticOp.onInt quotient
  simp only [hzero, hmin, hneg]
  split
  · rfl
  · split
    · next h =>
      rw [h.1, h.2]
      rfl
    · next h =>
      rcases not_and_or.1 h with ha | hb
      · exact Int64.toInt_div_of_ne_left a b ha
      · exact Int64.toInt_div_of_ne_right a b hb

/-! ### Folds -/

/-- A fold of integers of 64 bits keeps what they stand for, if every step does. -/
theorem represents_foldl {f : Int64 → Int64 → Int64} {g : Int → Int → Int}
    (step : ∀ n m k, Represents n k → Represents (f n m) (g k m.toInt)) (first : Int64) (rest : List Int64) :
    Represents (rest.foldl f first) ((rest.map Int64.toInt).foldl g first.toInt) := by
  suffices h : ∀ n k, Represents n k → Represents (rest.foldl f n) ((rest.map Int64.toInt).foldl g k) from
    h first first.toInt (.toInt first)
  intro n k h
  induction rest generalizing n k with
  | nil => exact h
  | cons m rest ih => exact ih _ _ (step n m k h)

private theorem foldl_sub (k : Int) (l : List Int) : l.foldl (· - ·) k = k - l.sum := by
  induction l generalizing k with
  | nil => exact (Int.sub_zero k).symm
  | cons m l ih => rw [List.foldl_cons, ih, List.sum_cons, Int.sub_sub]

variable (first : Int64) (rest : List Int64)

theorem represents_sum :
    Represents (rest.foldl ArithmeticOp.add.onInt first) ((first :: rest).map Int64.toInt).sum := by
  rw [List.map_cons, List.sum_eq_foldl, List.foldl_cons, Int.zero_add]
  exact represents_foldl (fun n m k h => h.add (.toInt m)) first rest

private theorem represents_prod :
    Represents (rest.foldl ArithmeticOp.mul.onInt first) ((first :: rest).map Int64.toInt).prod := by
  rw [List.map_cons, List.prod_eq_foldl, List.foldl_cons, Int.one_mul]
  exact represents_foldl (fun n m k h => h.mul (.toInt m)) first rest

private theorem represents_difference :
    Represents (rest.foldl ArithmeticOp.sub.onInt first) (first.toInt - (rest.map Int64.toInt).sum) := by
  rw [← foldl_sub]
  exact represents_foldl (fun n m k h => h.sub (.toInt m)) first rest

/-- Repeated division of 64-bit integers is that of the numbers. -/
theorem toInt_foldl_div :
    (rest.foldl ArithmeticOp.div.onInt first).toInt = (rest.map Int64.toInt).foldl quotient first.toInt := by
  rw [List.foldl_map]
  exact (List.foldl_hom Int64.toInt fun n m => (toInt_onInt_div n m).symm).symm

/-! ### Rules -/

private theorem foldlM_onValues?_int (op : ArithmeticOp) :
    (rest.map Value.int).foldlM op.onValues? (.int first) = some (.int (rest.foldl op.onInt first)) := by
  induction rest generalizing first with
  | nil => rfl
  | cons m rest ih => exact ih (op.onInt first m)

namespace ArithmeticOp

/-- The rule makes the integer of the arguments, whatever its node holds. -/
def Gives (op : ArithmeticOp) (args : List Arg) (n : Int64) : Prop :=
  ∀ current, (ValueRule.arithmetic op).compute args current = some (.int n)

variable {args args' : List Arg} {first : Int64} {rest : List Int64}

/-- Arithmetic on any non-empty list of integers gives the integer that comes of computing from left to right. -/
theorem gives_foldl (op : ArithmeticOp) (h : args.filterMap Arg.value? = (first :: rest).map Value.int) :
    op.Gives args (rest.foldl op.onInt first) := by
  intro current
  unfold ValueRule.arithmetic
  simp only [h, List.map_cons]
  exact foldlM_onValues?_int first rest op

/-- Arguments in another order hold the same integers in another order. -/
private theorem exists_perm {l : List Int64} (h : args.filterMap Arg.value? = l.map Value.int) (hp : args.Perm args') :
    ∃ l', args'.filterMap Arg.value? = l'.map Value.int ∧ l.Perm l' := by
  have hvalues := hp.filterMap Arg.value?
  rw [h] at hvalues
  have hrange : args'.filterMap Arg.value? ∈ Set.range (List.map Value.int) := by
    rw [Set.range_list_map]
    intro v hv
    obtain ⟨n, -, rfl⟩ := List.mem_map.1 (hvalues.mem_iff.2 hv)
    exact ⟨n, rfl⟩
  obtain ⟨l', hl'⟩ := hrange
  rw [← hl', List.map_perm_map_iff fun _ _ => Value.int.inj] at hvalues
  exact ⟨l', hl'.symm, hvalues⟩

/-- The order of the arguments makes no difference if the result stands for something that does not depend on it. -/
theorem gives_perm {op : ArithmeticOp} {total : List Int → Int} (htotal : ∀ {l l'}, l.Perm l' → total l = total l')
    (hop : ∀ first rest, Represents (rest.foldl op.onInt first) (total ((first :: rest).map Int64.toInt)))
    (h : args.filterMap Arg.value? = (first :: rest).map Value.int) (hp : args.Perm args') :
    op.Gives args' (rest.foldl op.onInt first) := by
  obtain ⟨l', hl', hperm⟩ := exists_perm h hp
  cases l' with
  | nil => cases hperm.eq_nil
  | cons first' rest' =>
    have hsame : rest.foldl op.onInt first = rest'.foldl op.onInt first' := by
      refine (hop first rest).unique ?_
      rw [htotal (hperm.map Int64.toInt)]
      exact hop first' rest'
    rw [hsame]
    exact op.gives_foldl hl'

/-! ### Faults -/

private theorem onIntChecked_eq (op : ArithmeticOp) (a b : Int64) :
    op.onIntChecked a b = .ok (op.onInt a b) := by
  cases op with
  | add => rfl
  | sub => rfl
  | mul => rfl
  | div =>
    change (if b = 0 then .ok 0 else Fault.div a b) = Except.ok (if b = 0 then 0 else a / b)
    unfold Fault.div
    split <;> rfl

private theorem onValuesChecked_eq (op : ArithmeticOp) (a b : Value) :
    (op.onValuesChecked a b).run = .ok (op.onValues? a b) := by
  match a, b with
  | .int a, .int b =>
    unfold onValuesChecked
    simp only [onIntChecked_eq]
    rfl
  | .double _, .double _ => rfl
  | .bool _, _ | .text _, _ | .int _, .bool _ | .int _, .double _ | .int _, .text _ | .double _, .bool _
  | .double _, .int _ | .double _, .text _ => rfl

private theorem foldlM_onValuesChecked (op : ArithmeticOp) (first : Value) (rest : List Value) :
    (rest.foldlM op.onValuesChecked first).run = .ok (rest.foldlM op.onValues? first) := by
  induction rest generalizing first with
  | nil => rfl
  | cons v rest ih =>
    rw [List.foldlM_cons, List.foldlM_cons, OptionT.run_bind, onValuesChecked_eq]
    cases op.onValues? first v with
    | none => rfl
    | some next => exact ih next

/-- The rules never fault: they do what they do with operations that cannot. -/
theorem computeChecked_eq (op : ArithmeticOp) (args : List Arg) (current : Option Value) :
    op.computeChecked args = .ok ((ValueRule.arithmetic op).compute args current) := by
  unfold computeChecked ValueRule.arithmetic
  dsimp only
  cases args.filterMap Arg.value? with
  | nil => rfl
  | cons first rest => exact op.foldlM_onValuesChecked first rest

/-! ### Arithmetic on integers -/

/-- What the rules make of arguments that hold these integers. -/
structure IsExact (args : List Arg) (first : Int64) (rest : List Int64) : Prop where
  add : ∃ n, Gives .add args n ∧ Represents n ((first :: rest).map Int64.toInt).sum
  mul : ∃ n, Gives .mul args n ∧ Represents n ((first :: rest).map Int64.toInt).prod
  sub : ∃ n, Gives .sub args n ∧ Represents n (first.toInt - (rest.map Int64.toInt).sum)
  div : ∃ n, Gives .div args n ∧ n.toInt = (rest.map Int64.toInt).foldl quotient first.toInt
  /-- Sums and products are the same for arguments in any order. -/
  perm : ∀ op args', op = .add ∨ op = .mul → args.Perm args' → ∃ n, Gives op args n ∧ Gives op args' n
  /-- No arguments whatever make the machine fault. -/
  noFault : ∀ op args' current,
    computeChecked op args' = .ok ((ValueRule.arithmetic op).compute args' current)

/-- Arithmetic on integers is exact modulo `2 ^ 64`, wherever arguments without a value stand between them. -/
theorem isExact (h : args.filterMap Arg.value? = (first :: rest).map Value.int) : IsExact args first rest where
  add := ⟨_, gives_foldl .add h, represents_sum first rest⟩
  mul := ⟨_, gives_foldl .mul h, represents_prod first rest⟩
  sub := ⟨_, gives_foldl .sub h, represents_difference first rest⟩
  div := ⟨_, gives_foldl .div h, toInt_foldl_div first rest⟩
  perm op args' hop hp := by
    rcases hop with rfl | rfl
    · exact ⟨_, gives_foldl .add h, gives_perm List.Perm.sum_eq represents_sum h hp⟩
    · exact ⟨_, gives_foldl .mul h, gives_perm List.Perm.prod_eq represents_prod h hp⟩
  noFault := computeChecked_eq

/-- The least integer and -1, between triggers. -/
def extremes : List Arg :=
  [⟨none, true, true⟩, ⟨some (.int Int64.minValue), true, false⟩, ⟨none, false, true⟩,
    ⟨some (.int (-1)), false, false⟩]

theorem extremes_exact : extremes.filterMap Arg.value? = [.int Int64.minValue, .int (-1)] ∧
    IsExact extremes Int64.minValue [-1] ∧ Gives .div extremes Int64.minValue :=
  ⟨rfl, isExact rfl, fun _ => rfl⟩

end ArithmeticOp

end Dataflow
