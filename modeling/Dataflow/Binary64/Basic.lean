/-!
# Double-precision numbers

A double-precision number is given by its 64 bits: a sign bit, eleven bits of exponent and fifty-two
bits of fraction.  Keeping the bits rather than the number they stand for keeps the two zeros and
the payloads of NaNs apart.  A finite number is `significand * 2 ^ exponent`, up to its sign.
-/

namespace Dataflow

/-- A double-precision number.  Two of them are equal when their bits are. -/
structure Binary64 where
  bits : UInt64
  deriving DecidableEq

namespace Binary64

def isNegative (d : Binary64) : Bool := 0x8000000000000000 ≤ d.bits.toNat

/-- The bits below the sign bit, as a number. -/
def magnitude (d : Binary64) : Nat := d.bits.toNat % 0x8000000000000000

def exponentField (d : Binary64) : Nat := d.magnitude / 0x10000000000000

def fraction (d : Binary64) : Nat := d.magnitude % 0x10000000000000

/-- The magnitude of the infinities; those above it are NaNs. -/
def infiniteMagnitude : Nat := 0x7ff0000000000000

def isNaN (d : Binary64) : Bool := infiniteMagnitude < d.magnitude

def isInfinite (d : Binary64) : Bool := d.magnitude = infiniteMagnitude

def isZero (d : Binary64) : Bool := d.magnitude = 0

/-- The significand, with the leading bit that normal numbers leave out. -/
def significand (d : Binary64) : Nat :=
  if d.exponentField = 0 then d.fraction else 0x10000000000000 + d.fraction

def exponent (d : Binary64) : Int := max 1 d.exponentField - 1075

/-- The number with the given sign and the given bits below it. -/
def ofParts (negative : Bool) (magnitude : Nat) : Binary64 :=
  ⟨UInt64.ofNat (if negative then 0x8000000000000000 + magnitude else magnitude)⟩

def zero : Binary64 := ofParts false 0

def infinity (negative : Bool) : Binary64 := ofParts negative infiniteMagnitude

/-- The quiet NaN with an empty payload. -/
def nan (negative : Bool) : Binary64 := ofParts negative 0x7ff8000000000000

/-- The number with the opposite sign; NaNs change their sign bit too. -/
def neg (d : Binary64) : Binary64 := ofParts (!d.isNegative) d.magnitude

def toFloat (d : Binary64) : Float := Float.ofBits d.bits

def ofFloat (x : Float) : Binary64 := ⟨x.toBits⟩

theorem magnitude_lt (d : Binary64) : d.magnitude < 0x8000000000000000 := Nat.mod_lt _ (by decide)

theorem toNat_bits (d : Binary64) :
    d.bits.toNat = if d.isNegative then 0x8000000000000000 + d.magnitude else d.magnitude := by
  have h := d.bits.toNat_lt
  unfold isNegative magnitude
  split <;> simp_all <;> omega

/-- A number is its sign and its magnitude. -/
theorem ext_parts {d e : Binary64} (hs : d.isNegative = e.isNegative)
    (hm : d.magnitude = e.magnitude) :
    d = e := by
  have h : d.bits.toNat = e.bits.toNat := by rw [toNat_bits, toNat_bits, hs, hm]
  cases d; cases e
  exact congrArg mk (UInt64.toNat_inj.1 h)

end Binary64

end Dataflow
