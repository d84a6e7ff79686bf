/-! The codes of diagnostics, one for each way a text can be wrong. -/
namespace Yang.Diagnostic

inductive Category where
  | lexical
  | delimiter
  | statement
  | cardinality
deriving DecidableEq

def Category.description : Category → String
  | lexical => "lexical error"
  | delimiter => "delimiter error"
  | statement => "statement error"
  | cardinality => "cardinality error"

inductive Code where
  | invalidToken
  | terminatorMissing
  | closingBraceMissing
  | inputEnds
  | inputContinues
  | blockMissing
  | argumentMissing
  | pieceMissing
  | notPermitted
  | outOfOrder
  | restrictionsConflict
  | deviateArgument
  | unitMissing
  | substatementMissing
  | substatementRepeated
  | blockEmpty
deriving DecidableEq

namespace Code

def all : List Code :=
  [invalidToken, terminatorMissing, closingBraceMissing, inputEnds, inputContinues, blockMissing,
    argumentMissing, pieceMissing, notPermitted, outOfOrder, restrictionsConflict, deviateArgument,
    unitMissing, substatementMissing, substatementRepeated, blockEmpty]

/-- How a code is written: its category's digit, and its number in the category. -/
def text : Code → String
  | invalidToken => "E0101"
  | terminatorMissing => "E0201"
  | closingBraceMissing => "E0202"
  | inputEnds => "E0203"
  | inputContinues => "E0204"
  | blockMissing => "E0205"
  | argumentMissing => "E0301"
  | pieceMissing => "E0302"
  | notPermitted => "E0303"
  | outOfOrder => "E0304"
  | restrictionsConflict => "E0305"
  | deviateArgument => "E0306"
  | unitMissing => "E0307"
  | substatementMissing => "E0401"
  | substatementRepeated => "E0402"
  | blockEmpty => "E0403"

def category : Code → Category
  | invalidToken => .lexical
  | terminatorMissing | closingBraceMissing | inputEnds | inputContinues |
    blockMissing => .delimiter
  | argumentMissing | pieceMissing | notPermitted | outOfOrder | restrictionsConflict |
    deviateArgument
  | unitMissing => .statement
  | substatementMissing | substatementRepeated | blockEmpty => .cardinality

def defaultMessage : Code → String
  | invalidToken => "invalid token"
  | terminatorMissing => "expected ';' or '\x7b'"
  | closingBraceMissing => "expected '\x7d'"
  | inputEnds => "unexpected end of input"
  | inputContinues => "unexpected input after top-level statement"
  | blockMissing => "missing statement block"
  | argumentMissing => "missing argument"
  | pieceMissing => "expected string after '+'"
  | notPermitted => "statement not permitted here"
  | outOfOrder => "statement out of order"
  | restrictionsConflict => "conflicting type restrictions"
  | deviateArgument => "invalid deviate argument"
  | unitMissing => "expected 'module' or 'submodule'"
  | substatementMissing => "missing mandatory substatement"
  | substatementRepeated => "too many substatements"
  | blockEmpty => "empty block"

/-- Errors about a whole block, which are collected; all others end the parse. -/
def isStructural (c : Code) : Bool := c.category = .cardinality

instance : ToString Code where
  toString := text

end Code

end Yang.Diagnostic
