import TourForest.Demo

/-!
# The demonstration program

Prints the session of `TourForest.Demo`.
-/

/-- Prints the session. A fault ends the program with its message. -/
def main : IO UInt32 := do
  match TourForest.Demo.lines.outcome with
  | .ok lines =>
    lines.forM IO.println
    return 0
  | .error fault =>
    IO.eprintln fault.message
    return 1
