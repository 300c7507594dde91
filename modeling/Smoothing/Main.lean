import Smoothing.CommandLine.Run

/-!
# The command

Reads the arguments and the log filter, shows what the command shows and ends with its status.
-/

open Smoothing.CommandLine

def main (args : List String) : IO UInt32 := do
  let filter := LogFilter.ofText ((← IO.getEnv "RUST_LOG").getD "")
  let result := Result.ofRequest filter (Request.ofArguments args)
  result.shown.forM IO.println
  (← IO.getStderr).putStr result.complaints
  return UInt32.ofNat result.status
