import ScriptTree.Text.CodePoint

/-!
# Exit codes

A program that ends by itself has the code it gives; one that a signal ends has the code 128 and the
number of the signal.
-/

namespace ScriptTree

/-- The code above which codes stand for signals. -/
def signalBase : Int := 128

/-- The **exit code** for the status of a program; a negative status stands for a signal. -/
def exitCode (status : Int) : Int := if status < 0 then signalBase - status else status

def describeExit (code : Int) : Text :=
  if code = 0 then "Success"
  else if signalBase < code then ("Terminated by signal " : Text) ++ Text.ofInt (code - signalBase)
  else ("Exited with code " : Text) ++ Text.ofInt code

end ScriptTree
