/-!
# White space

The white space that separates the parts of a formula: ASCII blanks, the four information
separators, and the Unicode spaces. `trim` removes it at both ends, `squeeze` makes every run of it
one space.
-/

namespace DiceFormula.Blank

/-- White space of any script. -/
def isBlank (c : Char) : Bool :=
  let n := c.toNat
  (9 ≤ n && n ≤ 13) || (28 ≤ n && n ≤ 32) || n == 0x85 || n == 0xa0 || n == 0x1680
    || (0x2000 ≤ n && n ≤ 0x200a) || n == 0x2028 || n == 0x2029 || n == 0x202f || n == 0x205f
    || n == 0x3000

/-- Removes white space at the front. -/
def trimLeft (cs : List Char) : List Char := cs.dropWhile isBlank

/-- Removes white space at the end. -/
def trimRight : List Char → List Char
  | [] => []
  | c :: cs =>
    match trimRight cs with
    | [] => if isBlank c then [] else [c]
    | r => c :: r

/-- Removes white space at both ends. -/
def trim (cs : List Char) : List Char := trimRight (trimLeft cs)

/-- Makes every run of white space one space; `gap` says that the run before has been written. -/
def squeezeFrom (gap : Bool) : List Char → List Char
  | [] => []
  | c :: cs =>
    if isBlank c then if gap then squeezeFrom true cs else ' ' :: squeezeFrom true cs
    else c :: squeezeFrom false cs

/-- One space for every run of white space, none at the ends. -/
def normalize (cs : List Char) : List Char := trim (squeezeFrom false cs)

/-- Removes white space at both ends of a string. -/
def trimString (s : String) : String := String.ofList (trim s.toList)

theorem trimLeft_length_le (cs : List Char) : (trimLeft cs).length ≤ cs.length :=
  (List.dropWhile_sublist _).length_le

theorem trimRight_length_le (cs : List Char) : (trimRight cs).length ≤ cs.length := by
  induction cs with
  | nil => simp [trimRight]
  | cons c cs ih =>
    unfold trimRight
    split
    · split <;> simp
    · simp only [List.length_cons]; omega

theorem trim_length_le (cs : List Char) : (trim cs).length ≤ cs.length :=
  Nat.le_trans (trimRight_length_le _) (trimLeft_length_le _)

end DiceFormula.Blank
