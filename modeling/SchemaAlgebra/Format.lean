import SchemaAlgebra.Instant
import SchemaAlgebra.Pattern.Parser
import SchemaAlgebra.Uri

/-!
# Formats of text

The `format` keyword names the kind of text that a string holds.  It is enforced on request, for the
formats below (`Format.accepts`); a string has every other format.  So the formats of times, durations,
host names, mail addresses, IPv6, UUIDs, IRIs, pointers and URI templates are left out.
-/

namespace SchemaAlgebra

namespace Format

/-- A number of `width` decimal digits, alone. -/
def fixedDigits? (width : Nat) (cs : List Char) : Option Nat :=
  if cs.length = width && cs.all Char.isDigit then
    some (Numeral.decimal cs)
  else none

/-- Whether this is a number below 256 without leading zeros. -/
def isOctet (cs : List Char) : Bool :=
  (cs.head? ≠ some '0' || cs.length = 1) && cs.length ≤ 3
    && (fixedDigits? cs.length cs).any (· < 256) && !cs.isEmpty

/-- Whether the text is an address of four octets. -/
def isIpv4 (text : String) : Bool :=
  let parts := text.splitOn "."
  parts.length = 4 && parts.all fun part => isOctet part.toList

/-- Whether the text is a day of the calendar. -/
def isDate (text : String) : Bool :=
  match text.splitOn "-" with
  | [year, month, day] =>
    match fixedDigits? 4 year.toList, fixedDigits? 2 month.toList, fixedDigits? 2 day.toList with
    | some year, some month, some day =>
      1 ≤ month && month ≤ 12 && 1 ≤ day && day ≤ Instant.daysInMonth year month
    | _, _, _ => false
  | _ => false

/-- Whether a text has a format. -/
def accepts (format text : String) : Bool :=
  match format with
  | "ipv4" => isIpv4 text
  | "date" => isDate text
  | "regex" => (Pattern.parse? text).isSome
  | "uri" => (Uri.parse? text).any Uri.isAbsolute
  | "uri-reference" => (Uri.parse? text).isSome
  | _ => true

end Format

end SchemaAlgebra
