/-!
# Exceptions

A function that throws returns the exception as the error of `Except`.

## Main definitions

* `StdException`: the exceptions of the standard library that the functions throw
-/

namespace RcppUtils

/-- An exception of the standard library, with the text of `what()`; for an error of the system,
the text that is put in front of the message for the code. -/
inductive StdException
  | badAlloc
  | invalidArgument (what : String)
  | runtimeError (what : String)
  | systemError (what : String)
  deriving DecidableEq

end RcppUtils
