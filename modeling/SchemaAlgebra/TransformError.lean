import SchemaAlgebra.Json.Basic

/-!
# Failures of transforms and constructors

A function that rewrites a value may fail.  Such a failure ends the validation that called the
function; it is not a complaint about the value.
-/

namespace SchemaAlgebra

/-- Why a class cannot construct an instance from a value. -/
inductive Rejection where
  /-- The value that was built is no instance of the class. -/
  | notInstance (className : String)
  /-- The text of the value cannot be read. -/
  | unreadable
  /-- A timestamp is given by a number that is not an integer of milliseconds. -/
  | fractionalMillis
  /-- A timestamp lies outside the calendar. -/
  | outOfCalendar
  /-- The class reads strings and numbers only. -/
  | notTextOrNumber
deriving DecidableEq, Inhabited

/-- A failure of a transform or constructor. -/
inductive TransformError where
  /-- A class rejected the value that `input` describes. -/
  | construct (className input : String) (reason : Rejection)
  /-- Any other failure, in the words of the function. -/
  | failed (message : String)
deriving DecidableEq, Inhabited

namespace Rejection

/-- The reason in words. -/
def message : Rejection → String
  | notInstance className => "not a " ++ className
  | unreadable => "input cannot be read"
  | fractionalMillis => "epoch milliseconds must be an integer"
  | outOfCalendar => "timestamp out of range"
  | notTextOrNumber => "expected a string or a number"

end Rejection

namespace TransformError

/-- The failure in words. -/
def message : TransformError → String
  | construct className input reason =>
    "could not construct " ++ className ++ " from " ++ input ++ ": " ++ reason.message
  | failed message => message

end TransformError

end SchemaAlgebra
