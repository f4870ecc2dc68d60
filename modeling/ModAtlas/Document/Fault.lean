/-!
# Faults of a document text

Why a text is no document. A syntax fault says what was missing and where; the other failure is
an integer with more digits than may be read.
-/

namespace ModAtlas.Document

/-- What is wrong with a text at one place. -/
inductive Fault where
  | valueExpected
  | nestingTooDeep
  | nameExpected
  | colonExpected
  | commaOrBraceExpected
  | commaOrBracketExpected
  | endExpected
  | unclosedComment
  | unclosedString
  | badEscape
deriving DecidableEq, Repr

/-- The wording of a fault. -/
def Fault.message : Fault → String
  | .valueExpected => "Value expected"
  | .nestingTooDeep => "Nesting too deep"
  | .nameExpected => "Property name expected"
  | .colonExpected => "Colon expected"
  | .commaOrBraceExpected => "Expected comma or closing brace"
  | .commaOrBracketExpected => "Expected comma or closing bracket"
  | .endExpected => "End of file expected"
  | .unclosedComment => "Unterminated comment"
  | .unclosedString => "Unterminated string"
  | .badEscape => "Invalid string escape"

/-- Why a text could not be read. -/
inductive Failure where
  | fault (fault : Fault) (offset : Nat)
  | numeralTooLong
deriving DecidableEq, Repr

end ModAtlas.Document
