/-!
# Words

Arithmetic on 64-bit words that says when it leaves the range, and rounding to a multiple of a
power of two.

* `Word.add?`, `Word.sub?`, `Word.mul?`: the exact result, or nothing.
* `Word.alignDown`, `Word.alignUp?`: rounding by masking off low bits. For a power of two these
  are the neighbouring multiples; for any other number they are what the mask gives.
* `Word.fls`: the number of binary digits.
-/

namespace PagedMemory.Word

/-- The sum, unless it is 2^64 or more: a sum that wrapped is smaller than its parts. -/
def add? (x y : UInt64) : Option UInt64 :=
  if x + y < x then none else some (x + y)

/-- The difference, unless it is negative. -/
def sub? (x y : UInt64) : Option UInt64 :=
  if y ≤ x then some (x - y) else none

/-- The product, unless it is 2^64 or more. -/
def mul? (x y : UInt64) : Option UInt64 :=
  if x.toNat * y.toNat < UInt64.size then some (x * y) else none

/-- Clears the bits of `x` below the single bit of `a`. -/
def alignDown (x a : UInt64) : UInt64 := x &&& ~~~(a - 1)

/-- Rounds up by adding `a - 1` and rounding down; nothing if that sum leaves the range. -/
def alignUp? (x a : UInt64) : Option UInt64 :=
  (add? x (a - 1)).map fun s => alignDown s a

/-- The number of binary digits of `x`: one more than the position of its highest bit, 0 for 0. -/
def fls (x : UInt64) : Nat := if x = 0 then 0 else x.toNat.log2 + 1

end PagedMemory.Word
