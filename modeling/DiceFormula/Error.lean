import DiceFormula.Value.Literal

/-!
# Errors

Every way in which reading, evaluating or restoring can fail, as its cause; `Error.message` gives
the wording and `Error.kind` the family that a caller tells apart. The families up to `cancelled`
are the library's own; the rest are faults of the data that were handed in.
-/

namespace DiceFormula

/-- Why a text is not a formula. -/
inductive ParseFault
  | notArithmetic (expression : String)
  | unmatched (bracket : Char) (text : String)
  | emptyExpression
  | reservedDollar (text : String)
  | numberBesideGroup (token : String)
  | missingOperator (left right : String)
  | adjacentOperators (left right : Char)
  | startsWith (operator : Char)
  | endsWith (operator : Char)
  | emptyArgument (arguments : String)
  | unknownFunction (name : String)
  | notText (typeName : String)
  deriving DecidableEq, Repr

/-- Why an argument cannot be used. -/
inductive ArgumentFault
  | notNumber (v : Value)
  | undefinedNumber
  | unknownOperator (v : Value)
  | emptyGroup
  | diceCount (v : Value)
  | faceCount (v : Value)
  | notDice (denomination : String)
  | noResult (record : Value)
  | unknownComparison (text : String)
  | unknownFunction (name : String)
  | argumentCount (name : String) (expected got : Nat)
  | noArguments (name : String)
  | failedCall (name : String) (arguments : Value) (cause : NumberError)
  | unboundedCall (name : String) (arguments : Value)
  | diceCap (v : Value)
  | noNumericDie

/-- The families of errors. -/
inductive ErrorKind
  | parse
  | unknownSymbol
  | unknownTerm
  | alreadyEvaluated
  | limitExceeded
  | divideByZero
  | unevaluatedString
  | invalidArgument
  | cancelled
  | wrongValue
  | overflow
  | wrongType
  | missingAttribute
  | badJson
  | drawsExhausted
  deriving DecidableEq, Repr

/-- What went wrong. -/
inductive Error
  | parse (fault : ParseFault)
  | unknownSymbol (path : String)
  | classless (record : Value)
  | unknownClass (name : String)
  | alreadyEvaluated (what : String)
  | tooManyDice (cap number : Value)
  | diceCapReached (dice : String) (cap : Value)
  | noFaces (faces : Value)
  | divideByZero (left : Number) (operator : Char) (right : Number)
  | unevaluatedString (text : String)
  | invalidArgument (fault : ArgumentFault)
  | cancelled (reason : String)
  | number (cause : NumberError)
  | wrongValue
  | wrongType
  | missingAttribute
  | badJson
  | drawsExhausted

instance : Inhabited Error := ⟨.wrongValue⟩

/-- The wording of a parse fault. -/
def ParseFault.message : ParseFault → String
  | .notArithmetic e => "invalid arithmetic expression '" ++ e ++ "'"
  | .unmatched b t => "unmatched '" ++ b.toString ++ "' in " ++ t
  | .emptyExpression => "empty expression"
  | .reservedDollar t => "unexpected '$' in " ++ t
  | .numberBesideGroup t => "missing operator next to " ++ t
  | .missingOperator l r => "missing operator between " ++ l ++ " and " ++ r
  | .adjacentOperators l r => "adjacent operators '" ++ l.toString ++ r.toString ++ "'"
  | .startsWith o => "expression cannot start with '" ++ o.toString ++ "'"
  | .endsWith o => "expression cannot end with '" ++ o.toString ++ "'"
  | .emptyArgument a => "empty argument in " ++ a
  | .unknownFunction n => "unknown function " ++ n
  | .notText t => "formula must be a string, not " ++ t

/-- The wording of an argument fault. -/
def ArgumentFault.message : ArgumentFault → String
  | .notNumber v => "expected a number, got " ++ v.literal
  | .undefinedNumber => "NaN is not a valid number"
  | .unknownOperator v => "unknown operator " ++ v.literal
  | .emptyGroup => "a parenthetical needs a term or a roll"
  | .diceCount v => "cannot roll " ++ v.literal ++ " dice"
  | .faceCount v => "a die cannot have " ++ v.literal ++ " faces"
  | .notDice d => "denomination " ++ d ++ " is not registered as a dice term"
  | .noResult r => "dice result " ++ r.literal ++ " has no 'result'"
  | .unknownComparison t => "unknown comparison '" ++ t ++ "'"
  | .unknownFunction n => "unknown function " ++ n
  | .argumentCount n e g =>
    "'" ++ n ++ "' expected " ++ toString e ++ " arguments, got " ++ toString g
  | .noArguments n => "'" ++ n ++ "' expected at least 1 argument"
  | .failedCall n a c => n ++ a.literal ++ ": " ++ c.message
  | .unboundedCall n a => n ++ a.literal ++ " is not a finite number"
  | .diceCap v => "max_dice must be a non-negative integer, got " ++ v.literal
  | .noNumericDie => "the 'd' denomination must be registered"

namespace Error

/-- The wording of an error. -/
def message : Error → String
  | .parse f => f.message
  | .unknownSymbol p => "unknown symbol @" ++ p
  | .classless r => "serialized term " ++ r.literal ++ " has no class"
  | .unknownClass n => "unknown term class " ++ n
  | .alreadyEvaluated w => "the " ++ w ++ " has already been evaluated and is now immutable"
  | .tooManyDice cap n =>
    "cannot roll more than " ++ cap.text ++ " dice, " ++ n.text ++ " requested"
  | .diceCapReached d cap => d ++ " would roll more than " ++ cap.text ++ " dice"
  | .noFaces f => "a die must have at least one face, not " ++ f.text
  | .divideByZero l o r =>
    "division by zero in '" ++ l.text ++ " " ++ o.toString ++ " " ++ r.text ++ "'"
  | .unevaluatedString t => "unresolved term '" ++ t ++ "' requested for evaluation"
  | .invalidArgument f => f.message
  | .cancelled r => r
  | .number c => c.message
  | .wrongValue => "the value is out of its domain"
  | .wrongType => "the value has the wrong type"
  | .missingAttribute => "the value lacks an attribute"
  | .badJson => "the text is not JSON"
  | .drawsExhausted => "the random source has no more draws"

/-- The family of an error. -/
def kind : Error → ErrorKind
  | .parse _ => .parse
  | .unknownSymbol _ => .unknownSymbol
  | .classless _ | .unknownClass _ => .unknownTerm
  | .alreadyEvaluated _ => .alreadyEvaluated
  | .tooManyDice _ _ | .diceCapReached _ _ | .noFaces _ => .limitExceeded
  | .divideByZero _ _ _ => .divideByZero
  | .unevaluatedString _ => .unevaluatedString
  | .invalidArgument _ => .invalidArgument
  | .cancelled _ => .cancelled
  | .number c => if c.isOverflow then .overflow else .wrongValue
  | .wrongValue => .wrongValue
  | .wrongType => .wrongType
  | .missingAttribute => .missingAttribute
  | .badJson => .badJson
  | .drawsExhausted => .drawsExhausted

end Error

namespace ErrorKind

/-- Whether the family is one of the library's own. -/
def isOwn : ErrorKind → Bool
  | .parse | .unknownSymbol | .unknownTerm | .alreadyEvaluated | .limitExceeded | .divideByZero
  | .unevaluatedString | .invalidArgument | .cancelled => true
  | _ => false

end ErrorKind

namespace Error

/-- The refusal of a value that is not the name of something, where names are looked up. A value
that cannot be looked up, or does not fill the gap of the wording, has the wrong type. -/
def ofName (fault : String → ArgumentFault) (v : Value) : Error :=
  match v.filling? with
  | some w => if v.isKey then .invalidArgument (fault w.text) else .wrongType
  | none => .wrongType

/-- The refusal to evaluate a text that is not classified. -/
def unevaluated (v : Value) : Error :=
  match v.filling? with
  | some w => .unevaluatedString w.text
  | none => .wrongType

end Error

/-- A numeric result with its failure as an error. -/
def ofNumeric {α : Type} : Except NumberError α → Except Error α
  | .ok a => .ok a
  | .error c => .error (.number c)

end DiceFormula
