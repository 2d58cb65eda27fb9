/-!
Spans of time, counted in nanoseconds, and their text: the largest of the units s, ms, µs and ns
that has a whole part, with as many decimals as are needed to be exact.
-/
namespace KeyedBlocks

structure Duration where
  nanos : Nat
  deriving DecidableEq, Repr

namespace Duration

def ofParts (seconds nanos : Nat) : Duration := ⟨seconds * 1000000000 + nanos⟩

def ofMillis (ms : Nat) : Duration := ⟨ms * 1000000⟩

/-- Whole milliseconds in 64 bits: a remainder is dropped and what does not fit wraps around. -/
def toMillis (d : Duration) : Nat := d.nanos / 1000000 % Nat.pow 2 64

/-- The longest that anything is waited for, in milliseconds: thirty years of 365 days. -/
def longestWait : Nat := 30 * 365 * 24 * 60 * 60 * 1000

def padded (width n : Nat) : List Char :=
  let digits := Nat.toDigits 10 n
  List.replicate (width - digits.length) '0' ++ digits

/-- The decimals `n` of a number, written to `width` places less the trailing zeros. -/
def decimals (width n : Nat) : String :=
  let kept := ((padded width n).reverse.dropWhile (· = '0')).reverse
  if kept.isEmpty then "" else "." ++ String.ofList kept

/-- `nanos` in units of `10 ^ places` nanoseconds. -/
def inUnit (nanos places : Nat) (unit : String) : String :=
  toString (nanos / Nat.pow 10 places) ++ decimals places (nanos % Nat.pow 10 places) ++ unit

def text (d : Duration) : String :=
  if 1000000000 ≤ d.nanos then inUnit d.nanos 9 "s"
  else if 1000000 ≤ d.nanos then inUnit d.nanos 6 "ms"
  else if 1000 ≤ d.nanos then inUnit d.nanos 3 "µs"
  else inUnit d.nanos 0 "ns"

end Duration

end KeyedBlocks
