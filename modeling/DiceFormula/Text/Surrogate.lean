/-!
# Halves of surrogate pairs

A text in escapes may name half of a surrogate pair by itself, which is no character of a string.
Texts therefore keep a half as two characters: the mark U+10FFFF, and a character that stands for
the half. The mark by itself is kept as two marks, and everything else as it is. `ofPoint` keeps a
code point so and `points` tells the code points of a text, of which none is lost
(`points_flatMap_ofPoint`). Texts from outside are taken in by `ofRaw` and given out by `toRaw`.
-/

namespace DiceFormula.Surrogate

/-- The character that announces a half, or itself. -/
def mark : Char := Char.ofNat 0x10ffff

/-- Whether a code point is half of a pair. -/
def isHalf (n : Nat) : Bool := 0xd800 ≤ n && n ≤ 0xdfff

/-- A code point in a text. -/
def ofPoint (n : Nat) : List Char :=
  if isHalf n then [mark, Char.ofNat (n + 0x800)]
  else if n = mark.toNat then [mark, mark]
  else [Char.ofNat n]

/-- The code points of a text. -/
def points : List Char → List Nat
  | [] => []
  | [c] => [c.toNat]
  | c :: d :: cs =>
    if c = mark then (if d = mark then mark.toNat else d.toNat - 0x800) :: points cs
    else c.toNat :: points (d :: cs)

theorem toNat_ofNat {n : Nat} (h : n.isValidChar) : (Char.ofNat n).toNat = n := by
  rw [Char.ofNat, dif_pos h]
  rfl

theorem points_cons {c : Char} (h : c ≠ mark) (cs : List Char) :
    points (c :: cs) = c.toNat :: points cs := by
  cases cs <;> simp [points, h]

theorem points_ofPoint_append {n : Nat} (h : n < 0x110000) (cs : List Char) :
    points (ofPoint n ++ cs) = n :: points cs := by
  have hm : mark.toNat = 0x10ffff := by decide
  unfold ofPoint
  split
  · next half =>
    simp only [isHalf, Bool.and_eq_true, decide_eq_true_eq] at half
    have e := toNat_ofNat (n := n + 0x800) (.inr ⟨by omega, by omega⟩)
    have ne : Char.ofNat (n + 0x800) ≠ mark := fun h => by
      have := congrArg Char.toNat h
      omega
    simp [points, ne, e]
  · next half =>
    split
    · next eq => simp [points, eq]
    · next ne =>
      simp only [isHalf, Bool.and_eq_true, decide_eq_true_eq, not_and] at half
      have valid : n.isValidChar := by
        by_cases low : n < 0xd800
        · exact .inl low
        · exact .inr ⟨by omega, h⟩
      have e := toNat_ofNat valid
      have ne' : Char.ofNat n ≠ mark := fun h => ne (by rw [← e, h])
      simp [points_cons ne', e]

/-- A text keeps all code points. -/
theorem points_flatMap_ofPoint (ns : List Nat) (h : ∀ n ∈ ns, n < 0x110000) :
    points (ns.flatMap ofPoint) = ns := by
  induction ns with
  | nil => rfl
  | cons n ns ih =>
    rw [List.flatMap_cons, points_ofPoint_append (h n List.mem_cons_self),
      ih fun m hm => h m (List.mem_cons_of_mem n hm)]

/-- The text that some characters from outside make. -/
def ofRaw (s : String) : String := String.ofList (s.toList.flatMap fun c => ofPoint c.toNat)

/-- The characters of a text to the outside, where a half has none and is replaced. -/
def toRaw (s : String) : String :=
  String.ofList ((points s.toList).map fun n => Char.ofNat (if isHalf n then 0xfffd else n))

/-- The number of code points of a text. -/
def length (s : String) : Nat := (points s.toList).length

/-- The code points of a text, each as a text of its own. -/
def characters (s : String) : List String :=
  (points s.toList).map fun n => String.ofList (ofPoint n)

/-- Whether a text stands before another one: the first code point that differs decides. -/
def precedes (s t : String) : Bool := points s.toList < points t.toList

/-- A text in which two code points have changed places. -/
def exchange (a b : Nat) (s : String) : String :=
  String.ofList ((points s.toList).flatMap fun n =>
    ofPoint (if n = a then b else if n = b then a else n))

end DiceFormula.Surrogate
