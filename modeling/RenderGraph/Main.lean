import RenderGraph.Demo
/-!
# The demo's command line

Prints the lines of the dry-run demo. A failure is reported on standard error with exit code 1.
-/

open RenderGraph

/-- Runs the demo. -/
def main : IO UInt32 := do
  let (lines, failure) := Demo.run
  for line in lines do IO.println line
  match failure with
  | some e =>
    IO.eprintln ("Error: " ++ e.summary)
    pure 1
  | none => pure 0
