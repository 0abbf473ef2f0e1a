/-
# Core.Error — errors of the client libraries

An error has a kind and a message; a call ends in a value or in an error.
-/

namespace AzureSdk.Core

/-- Of a response only the status is kept. -/
inductive ErrorKind
  | httpResponse (status : Nat)
  | connection
  | io
  | dataConversion
  | credential
  | other
  deriving DecidableEq, Repr

/-- `Error::with_message`. -/
structure Error where
  kind : ErrorKind
  message : String
  deriving DecidableEq, Repr

abbrev Result (α : Type) := Except Error α

end AzureSdk.Core
