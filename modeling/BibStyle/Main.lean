import BibStyle.Cli

/-! # The program -/

open BibStyle

/-- The bytes of a file, or the system's words for why there are none. -/
def readBytes (path : String) : IO (Except String (List UInt8)) := do
  try
    pure (.ok (← IO.FS.readBinFile path).toList)
  catch
    | .noFileOrDirectory .. => pure (.error "No such file or directory (os error 2)")
    | e => pure (.error e.toString)

def main (args : List String) : IO UInt32 := do
  let outcome ← Cli.run readBytes args
  IO.print outcome.out
  IO.eprint outcome.err
  pure outcome.code.toUInt32
