/-!
# Durations in text

A duration is shown in the greatest unit of which it holds at least one, with as many decimals as
it has.
-/

namespace HopRouting.Text

/-- The decimals of a part of a unit, at most as many as `count` tells. -/
def decimals (unit : Nat) : Nat → Nat → List Char
  | 0, _ => []
  | _, 0 => []
  | count + 1, part =>
    Nat.digitChar (10 * part / unit) :: decimals unit count (10 * part % unit)

/-- A number of parts, shown in a unit of as many parts as `unit` tells. -/
def inUnit (unit n : Nat) : String :=
  match decimals unit 9 (n % unit) with
  | [] => (n / unit).repr
  | digits => (n / unit).repr ++ "." ++ String.ofList digits

/-- The text of a duration in nanoseconds. -/
def duration (nanoseconds : Nat) : String :=
  if nanoseconds < 1000 then nanoseconds.repr ++ "ns"
  else if nanoseconds < 1000000 then inUnit 1000 nanoseconds ++ "µs"
  else if nanoseconds < 1000000000 then inUnit 1000000 nanoseconds ++ "ms"
  else inUnit 1000000000 nanoseconds ++ "s"

example : duration 1234560 = "1.23456ms" := by decide +kernel
example : duration 2000000000 = "2s" := by decide +kernel
example : duration 2000000001 = "2.000000001s" := by decide +kernel
example : duration 999 = "999ns" := by decide +kernel

end HopRouting.Text
