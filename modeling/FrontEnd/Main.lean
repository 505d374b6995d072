import FrontEnd.CommandLine.Run

/-! # The program -/

open FrontEnd

/-- The bytes of a file, or `none` if it cannot be read. -/
def readFile? (file : String) : IO (Option ByteArray) := do
  try
    return some (← IO.FS.readBinFile file)
  catch _ => return none

def main (args : List String) : IO UInt32 := do
  let exit ← runArgs readFile? args
  (← IO.getStdout).putStr exit.out
  (← IO.getStderr).putStr exit.err
  return UInt32.ofNat exit.code
