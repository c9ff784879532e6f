/-! # Spans of time

A span, and likewise an instant on a session's clock, is a number of nanoseconds. Its text names the
largest unit with a whole part, with as many places as the value needs. -/

namespace CallRelay.Span

/-- So many milliseconds. -/
def ofMillis (n : Nat) : Nat := n * 1000000

/-- So many seconds. -/
def ofSeconds (n : Nat) : Nat := n * 1000000000

/-- The whole milliseconds of a span. -/
def millis (s : Nat) : Nat := s / 1000000

/-- The longest span there is: 2^64 seconds less one nanosecond. -/
def longest : Nat := UInt64.size * 1000000000 - 1

/-- `n` in decimal, with zeros in front up to `width` digits. -/
def padded (width n : Nat) : List Char :=
  let ds := (toString n).toList
  List.replicate (width - ds.length) '0' ++ ds

/-- Digits without the zeros at their end. -/
def trimZeros (ds : List Char) : List Char := (ds.reverse.dropWhile (· == '0')).reverse

/-- `n` over `10 ^ places` in decimal: a point and a fraction only if the fraction is not zero. -/
def decimal (n places : Nat) : String :=
  let whole := toString (n / Nat.pow 10 places)
  match trimZeros (padded places (n % Nat.pow 10 places)) with
  | [] => whole
  | ds => whole ++ "." ++ String.ofList ds

/-- The text of a span, in seconds, milliseconds, microseconds or nanoseconds. -/
def text (s : Nat) : String :=
  if 1000000000 ≤ s then decimal s 9 ++ "s"
  else if 1000000 ≤ s then decimal s 6 ++ "ms"
  else if 1000 ≤ s then decimal s 3 ++ "µs"
  else decimal s 0 ++ "ns"

end CallRelay.Span
