import Scriptlet.CommandLine

/-!
# The program

Prints the outcome that the command line describes.
-/

def main (args : List String) : IO UInt32 := do
  let outcome := Scriptlet.CommandLine.run args
  IO.print outcome.stdout
  IO.eprint outcome.stderr
  return outcome.code.toUInt32
