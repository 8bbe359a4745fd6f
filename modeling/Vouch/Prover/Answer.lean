import Vouch.Prover.Error
import Vouch.Text.Blank

/-!
# Prover Answers

A prover answers a query with any number of lines that say something about
counterexamples, and then one line with its verdict, which may be numbered.

## Main definitions

* `Answer.ofLine`: What a line says.
* `Answer.read`: Reads lines up to a verdict or a complaint.
-/

namespace Vouch

namespace Answer

/-- How a complaint about the input starts. -/
def complaint : String := "Bad input"

/-- A line without the number and colon at its start, if it has them. -/
def unnumbered (line : List Char) : List Char :=
  let number := line.takeWhile (· != ':')
  match line.dropWhile (· != ':') with
  | [] => line
  | _ :: rest =>
    if !number.isEmpty && (Text.trimChars number).all Char.isDigit then Text.trimChars rest
    else line

/-- The verdict in a line without blanks at its ends. -/
def verdict? (line : List Char) : Option Bool :=
  let said := unnumbered line
  if said = "Valid.".toList then some true
  else if said = "Invalid.".toList then some false
  else none

/-- What a line says: a verdict, nothing of interest, or a complaint. -/
def ofLine (line : String) : Except ProverError (Option Bool) :=
  let said := Text.trimChars line.toList
  if complaint.toList.isPrefixOf said then .error (.malformed (String.ofList said))
  else .ok (verdict? said)

/-- Read lines up to the first verdict or complaint, and return it with the
    lines after it. There is none if the lines end before. -/
def read : List String → Option (Except ProverError Bool) × List String
  | [] => (none, [])
  | line :: lines =>
    match ofLine line with
    | .error e => (some (.error e), lines)
    | .ok (some verdict) => (some (.ok verdict), lines)
    | .ok none => read lines

end Answer

end Vouch
