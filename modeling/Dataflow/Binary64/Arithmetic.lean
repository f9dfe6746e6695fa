import Dataflow.Binary64.Basic

/-!
# Arithmetic on double-precision numbers

The four operations round the exact result once.  A NaN among the operands is the result, the first
one where there are two, made quiet; an operation without a result (`∞ - ∞`, `0 * ∞`, `∞ / ∞`) gives
the negative quiet NaN.
-/

namespace Dataflow.Binary64

/-- The same NaN with the bit set that marks it quiet. -/
def quiet (d : Binary64) : Binary64 := ⟨d.bits ||| 0x0008000000000000⟩

def combine (op : Float → Float → Float) (a b : Binary64) : Binary64 :=
  if a.isNaN then a.quiet
  else if b.isNaN then b.quiet
  else
    let result := op a.toFloat b.toFloat
    if result.isNaN then nan true else ofFloat result

def add (a b : Binary64) : Binary64 := combine (· + ·) a b
def sub (a b : Binary64) : Binary64 := combine (· - ·) a b
def mul (a b : Binary64) : Binary64 := combine (· * ·) a b
def div (a b : Binary64) : Binary64 := combine (· / ·) a b

/-- The integer toward zero.  A NaN gives 0, and a number out of range the nearest integer in
range. -/
def truncate (d : Binary64) : Int64 :=
  if d.isNaN then 0
  else
    let size := (d.significand <<< d.exponent.toNat) >>> (-d.exponent).toNat
    if d.isNegative then
      if 0x8000000000000000 ≤ size then Int64.minValue else Int64.ofInt (-size)
    else
      if 0x8000000000000000 ≤ size then Int64.maxValue else Int64.ofInt size

end Dataflow.Binary64
