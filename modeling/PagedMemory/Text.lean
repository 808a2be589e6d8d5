/-!
# Numbers as text

The forms in which addresses and sizes appear in messages.

* `Text.hex`: lower case, no leading zeros, for sizes.
* `Text.wideHex`: lower case, all sixteen digits, for table entries.
* `Text.address`: upper case, all sixteen digits, for addresses.
* `Text.column`: decimal in a column of a given width.
-/

namespace PagedMemory.Text

/-- The hexadecimal digits of `x`, most significant first, without leading zeros. -/
def hexDigits (x : UInt64) : List Char := Nat.toDigits 16 x.toNat

/-- Puts copies of `fill` in front until there are at least `width` characters. -/
def padLeft (width : Nat) (fill : Char) (cs : List Char) : List Char :=
  List.replicate (width - cs.length) fill ++ cs

def hex (x : UInt64) : String := "0x" ++ String.ofList (hexDigits x)

def wideHex (x : UInt64) : String := "0x" ++ String.ofList (padLeft 16 '0' (hexDigits x))

def address (x : UInt64) : String :=
  "0x" ++ String.ofList (padLeft 16 '0' ((hexDigits x).map Char.toUpper))

/-- The decimal form of `n`, at the right end of a column of `width` characters. -/
def column (width n : Nat) : String := String.ofList (padLeft width ' ' (Nat.toDigits 10 n))

end PagedMemory.Text
