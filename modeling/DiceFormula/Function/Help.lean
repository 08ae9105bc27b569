import DiceFormula.Function.Basic

/-!
# Help on functions

The one-line description and the help text of every function.
-/

namespace DiceFormula.Function

/-- One line on what a function does. -/
def description : Function → String
  | floor => "round down"
  | ceil => "round up"
  | round => "round to nearest, halves up"
  | trunc => "drop the fractional part"
  | abs => "absolute value"
  | sign => "-1, 0 or 1"
  | sqrt => "square root"
  | cbrt => "cube root"
  | exp => "e raised to a power"
  | log => "natural logarithm"
  | log2 => "base 2 logarithm"
  | log10 => "base 10 logarithm"
  | pow => "raise to a power"
  | min => "smallest argument"
  | max => "largest argument"
  | hypot => "square root of the sum of squares"

/-- The help text of a function without one of its own. -/
def noHelp : String := "No help text available for this function."

/-- A help text: the call, its arguments, its result and examples, line by line. -/
def helpText (call : String) (arguments result examples : List String) : String :=
  let indented (ls : List String) := String.join (ls.map fun l => "    " ++ l ++ "\n")
  call ++ "\n\nArguments:\n" ++ indented arguments ++ "\nResult:\n" ++ indented result
    ++ "\nExamples:\n" ++ indented examples

/-- The help text of a function. -/
def help : Function → String
  | floor => helpText "floor(<x>)" ["x - A number."]
      ["The largest integer less than or equal to x."] ["floor(7/2)", "floor(1d6/2)"]
  | ceil => helpText "ceil(<x>)" ["x - A number."]
      ["The smallest integer greater than or equal to x."] ["ceil(7/2)", "ceil(1d6/2)"]
  | round => helpText "round(<x>)" ["x - A number."]
      ["x rounded to the nearest integer. Halves", "always round up, so round(2.5) is 3 and",
        "round(-2.5) is -2."] ["round(5/2)", "round(1d10/3)"]
  | abs => helpText "abs(<x>)" ["x - A number."] ["The absolute value of x."] ["abs(1d6 - 1d6)"]
  | pow => helpText "pow(<x>, <y>)" ["x - The base.", "y - The exponent."]
      ["x raised to the power y."] ["pow(2, 1d4)"]
  | min => helpText "min(<x>, ...)" ["x - One or more numbers."] ["The smallest of the arguments."]
      ["min(1d20, 1d20)", "min(@abilities.str, 10)"]
  | max => helpText "max(<x>, ...)" ["x - One or more numbers."] ["The largest of the arguments."]
      ["max(1d20, 1d20)", "max(1d6 - 2, 0)"]
  | _ => noHelp

end DiceFormula.Function
