import DiceFormula.Proofs.Formula.DiceText
import DiceFormula.Proofs.Formula.Pieces

/-!
# Marks in the place of groups

The flat rest of a formula has a mark `$$F<n>$$` in the place of its `n`-th group. `Marked.read` goes
through a text from left to right and tells the marks from the other characters; it knows nothing of
groups. If the formula has no dollar sign, what it finds in the rest are the marks that were put
there: the numbers from zero on, each once and in order (`Piece.numbers_render`), and with the groups
in the places of their marks the rest is the written formula again (`Piece.refill_render`). The
dollar signs that end a mark do not begin another one: `(1)F2(2)` leaves `$$F0$$F2$$F1$$`, in which
there are two marks.
-/

namespace DiceFormula

/-- A part of a text with marks. -/
inductive Marked
  | char (c : Char)
  | mark (n : Nat)
  deriving DecidableEq, Repr

namespace Marked

/-! ## Reading marks -/

/-- The number of the mark at the front of a text, and what follows the mark. -/
def take? : List Char → Option (Nat × List Char)
  | '$' :: '$' :: 'F' :: cs =>
    match cs.dropWhile Char.isDigit with
    | '$' :: '$' :: rest => (Digit.readNat? (cs.takeWhile Char.isDigit)).map fun n => (n, rest)
    | _ => none
  | _ => none

theorem length_of_take? {cs rest : List Char} {n : Nat} (h : take? cs = some (n, rest)) :
    rest.length < cs.length := by
  unfold take? at h
  split at h
  · next ds =>
    split at h
    · next more hmore =>
      obtain ⟨_, -, e⟩ := Option.map_eq_some_iff.1 h
      obtain rfl : more = rest := (Prod.mk.inj e).2
      have short := (List.dropWhile_sublist (l := ds) Char.isDigit).length_le
      rw [hmore] at short
      simp only [List.length_cons] at short ⊢
      omega
    · cases h
  · cases h

/-- The parts of a text, read from left to right. -/
def read (cs : List Char) : List Marked :=
  match cs with
  | [] => []
  | c :: cs =>
    match h : take? (c :: cs) with
    | some (n, rest) =>
      have := length_of_take? h
      mark n :: read rest
    | none => char c :: read cs
termination_by cs.length
decreasing_by all_goals (simp only [List.length_cons] at *; omega)

/-- The number of a mark. -/
def number? : Marked → Option Nat
  | char _ => none
  | mark n => some n

/-- The numbers of the marks in a text. -/
def numbers (cs : List Char) : List Nat := (read cs).filterMap number?

/-- What stands for a part: a character stands for itself, a mark for its group. -/
def filled (gs : List Group) : Marked → List Char
  | char c => [c]
  | mark n => (gs[n]?.map Group.written).getD []

/-- The text with the groups in the places of their marks. -/
def refill (gs : List Group) (cs : List Char) : List Char := (read cs).flatMap (filled gs)

/-- The mark of a group. -/
def text (n : Nat) : List Char := ("$$F" ++ toString n ++ "$$").toList

theorem text_eq (n : Nat) : text n = '$' :: '$' :: 'F' :: (Nat.toDigits 10 n ++ ['$', '$']) := by
  simp [text, String.toList_append, Nat.toString_eq_repr, Nat.repr]

theorem read_nil : read [] = [] := by rw [read]

theorem read_cons {c : Char} (h : c ≠ '$') (cs : List Char) : read (c :: cs) = char c :: read cs := by
  have noMark : take? (c :: cs) = none := by
    unfold take?
    split
    · next e => exact absurd (List.cons.inj e).1 h
    · rfl
  rw [read]
  split
  · next e =>
    rw [noMark] at e
    cases e
  · rfl

theorem read_append {cs : List Char} (h : '$' ∉ cs) (ds : List Char) :
    read (cs ++ ds) = cs.map char ++ read ds := by
  induction cs with
  | nil => rfl
  | cons c cs ih =>
    obtain ⟨hc, hcs⟩ := List.ne_and_not_mem_of_not_mem_cons h
    rw [List.cons_append, read_cons hc.symm, ih hcs]
    rfl

theorem take?_text (n : Nat) (cs : List Char) : take? (text n ++ cs) = some (n, cs) := by
  have isInt := Arithmetic.isInt_toDigits n
  have value : digitsValue (Nat.toDigits 10 n) = n := Nat.ofDigitChars_ten_toDigits
  have digits : (Nat.toDigits 10 n ++ '$' :: '$' :: cs).takeWhile Char.isDigit
      = Nat.toDigits 10 n := by
    rw [List.takeWhile_append_of_pos isInt.2, List.takeWhile_cons_of_neg (by decide),
      List.append_nil]
  have behind : (Nat.toDigits 10 n ++ '$' :: '$' :: cs).dropWhile Char.isDigit
      = '$' :: '$' :: cs := by
    rw [List.dropWhile_append_of_pos isInt.2, List.dropWhile_cons_of_neg (by decide)]
  rw [text_eq, List.cons_append, List.cons_append, List.cons_append, List.append_assoc,
    List.cons_append, List.singleton_append, take?]
  simp only [behind, digits, Leaf.readNat?_of_isInt isInt, value, Option.map_some]

/-- **A mark is read as its number.** -/
theorem read_text (n : Nat) (cs : List Char) : read (text n ++ cs) = mark n :: read cs := by
  have taken := take?_text n cs
  rw [text_eq] at taken ⊢
  rw [List.cons_append, read]
  split
  · next e =>
    rw [← List.cons_append, taken] at e
    obtain ⟨rfl, rfl⟩ := Prod.mk.inj (Option.some.inj e)
    rfl
  · next e =>
    rw [← List.cons_append, taken] at e
    cases e

/-- A mark has no brackets. -/
theorem outside_of_mem_text {n : Nat} {c : Char} (h : c ∈ text n) : (Atom.char c).Outside := by
  have dollar : (Atom.char '$').Outside := ⟨by decide, rfl, rfl⟩
  rw [text_eq, List.mem_cons, List.mem_cons, List.mem_cons, List.mem_append, List.mem_pair] at h
  rcases h with rfl | rfl | rfl | digit | rfl | rfl
  · exact dollar
  · exact dollar
  · exact Atom.outside_of_isAlphanum (by decide)
  · have isDigit := (Arithmetic.isInt_toDigits n).2 c digit
    exact Atom.outside_of_isAlphanum (by rw [Char.isAlphanum, isDigit, Bool.or_true])
  · exact dollar
  · exact dollar

theorem scan_text (n : Nat) (cs : List Char) :
    Atom.scan (text n ++ cs) = (text n).map .char ++ Atom.scan cs :=
  Atom.scan_append_of_not_mem (fun loose => (outside_of_mem_text loose).1 rfl) cs

end Marked

/-! ## The flat rest -/

namespace Piece

open Marked (read numbers refill)

variable {ps : List Piece}

/-- No dollar sign stands outside the groups. -/
def Unmarked (ps : List Piece) : Prop := ∀ a, atom a ∈ ps → '$' ∉ a.text

theorem Unmarked.cons_atom {a : Atom} (h : Unmarked (atom a :: ps)) :
    '$' ∉ a.text ∧ Unmarked ps :=
  ⟨h a List.mem_cons_self, fun b hb => h b (List.mem_cons_of_mem _ hb)⟩

theorem Unmarked.cons_group {g : Group} (h : Unmarked (group g :: ps)) : Unmarked ps :=
  fun a ha => h a (List.mem_cons_of_mem _ ha)

theorem read_renderFrom_atom {a : Atom} (h : '$' ∉ a.text) (n : Nat) (ps : List Piece) :
    read (renderFrom n (atom a :: ps)) = a.text.map Marked.char ++ read (renderFrom n ps) :=
  Marked.read_append h _

theorem read_renderFrom_group (n : Nat) (g : Group) (ps : List Piece) :
    read (renderFrom n (group g :: ps)) = Marked.mark n :: read (renderFrom (n + 1) ps) :=
  Marked.read_text n _

/-- Every dollar sign of the flat rest belongs to a mark. -/
theorem dollar_not_mem_read (h : Unmarked ps) (n : Nat) :
    Marked.char '$' ∉ read (renderFrom n ps) := by
  induction ps generalizing n with
  | nil =>
    rw [renderFrom, Marked.read_nil]
    exact List.not_mem_nil
  | cons p ps ih =>
    cases p with
    | atom a =>
      obtain ⟨ha, hps⟩ := h.cons_atom
      rw [read_renderFrom_atom ha, List.mem_append]
      rintro (hm | hm)
      · obtain ⟨c, hc, e⟩ := List.mem_map.1 hm
        exact ha (Marked.char.inj e ▸ hc)
      · exact ih hps n hm
    | group g =>
      rw [read_renderFrom_group]
      exact List.not_mem_cons_of_ne_of_not_mem (by simp) (ih h.cons_group (n + 1))

theorem numbers_renderFrom (h : Unmarked ps) (n : Nat) :
    numbers (renderFrom n ps) = List.range' n (groups ps).length := by
  induction ps generalizing n with
  | nil =>
    rw [renderFrom, numbers, Marked.read_nil]
    rfl
  | cons p ps ih =>
    cases p with
    | atom a =>
      obtain ⟨ha, hps⟩ := h.cons_atom
      have none : (a.text.map Marked.char).filterMap Marked.number? = [] := by
        rw [List.filterMap_map]
        exact List.filterMap_eq_nil_iff.2 fun _ _ => rfl
      rw [numbers, read_renderFrom_atom ha, List.filterMap_append, none, List.nil_append]
      exact ih hps n
    | group g =>
      have step : groups (group g :: ps) = g :: groups ps := rfl
      rw [numbers, read_renderFrom_group, step, List.length_cons, List.range'_succ, ← ih h.cons_group]
      rfl

/-- **The marks in the flat rest are the numbers of the groups**, each once and in order. -/
theorem numbers_render (h : Unmarked ps) :
    numbers (render ps).toList = List.range (groups ps).length := by
  rw [render, String.toList_ofList, numbers_renderFrom h, List.range_eq_range']

example : numbers "$$F0$$F2$$F1$$".toList = [0, 1] := by decide +kernel

theorem refill_renderFrom (h : Unmarked ps) (before : List Group) :
    refill (before ++ groups ps) (renderFrom before.length ps) = ps.flatMap written := by
  induction ps generalizing before with
  | nil =>
    rw [renderFrom, refill, Marked.read_nil]
    rfl
  | cons p ps ih =>
    cases p with
    | atom a =>
      obtain ⟨ha, hps⟩ := h.cons_atom
      have same (gs : List Group) : (a.text.map Marked.char).flatMap (Marked.filled gs) = a.text := by
        rw [List.flatMap_map]
        exact List.flatMap_singleton' a.text
      rw [refill, read_renderFrom_atom ha, List.flatMap_append, same, List.flatMap_cons, written]
      exact congrArg _ (ih hps before)
    | group g =>
      have step : before ++ groups (group g :: ps) = before ++ [g] ++ groups ps := by
        rw [List.append_assoc]
        rfl
      have found : (before ++ [g] ++ groups ps)[before.length]? = some g := by simp
      have ih := ih h.cons_group (before ++ [g])
      rw [List.length_append, List.length_singleton] at ih
      rw [refill, read_renderFrom_group, step, List.flatMap_cons, Marked.filled, found,
        List.flatMap_cons, written]
      exact congrArg _ ih

/-- **With the groups in the places of their marks the flat rest is the written formula.** -/
theorem refill_render (h : Unmarked ps) :
    refill (groups ps) (render ps).toList = ps.flatMap written := by
  rw [render, String.toList_ofList]
  exact refill_renderFrom h []

/-- No bracket stands in the flat rest, except in flavors. -/
theorem outside_of_mem_scan_renderFrom (h : ∀ a, atom a ∈ ps → a.Outside) {n : Nat} {a : Atom}
    (ha : a ∈ Atom.scan (renderFrom n ps)) : a.Outside := by
  induction ps generalizing n with
  | nil =>
    rw [renderFrom, Atom.scan] at ha
    exact absurd ha List.not_mem_nil
  | cons p ps ih =>
    have ih := @ih fun b hb => h b (List.mem_cons_of_mem _ hb)
    cases p with
    | atom b =>
      have outside := h b List.mem_cons_self
      rw [renderFrom, outside.neat.scan_append, List.mem_cons] at ha
      rcases ha with rfl | ha
      · exact outside
      · exact ih ha
    | group g =>
      have scanned := Marked.scan_text n (renderFrom (n + 1) ps)
      rw [Marked.text] at scanned
      rw [renderFrom, scanned, List.mem_append] at ha
      rcases ha with ha | ha
      · obtain ⟨c, hc, rfl⟩ := List.mem_map.1 ha
        exact Marked.outside_of_mem_text hc
      · exact ih ha

end Piece

end DiceFormula
