import DiceFormula.Error
import DiceFormula.Text.Blank

/-!
# Atoms of a formula

A flavor is a remark in square brackets; nothing inside it is read. `Atom.scan` takes a text apart
into flavors and single characters, and `Atom.render` puts it together again (`render_scan`), so
that everything that looks for brackets or separators can go atom by atom.
-/

namespace DiceFormula

/-- A piece of a formula that is read as one: a flavor, or a single character. A square bracket that
is never closed is a character. -/
inductive Atom
  | char (c : Char)
  | flavor (body : List Char)
  deriving DecidableEq, Repr

namespace Atom

/-- The text of an atom. -/
def text : Atom → List Char
  | char c => [c]
  | flavor body => '[' :: body ++ [']']

/-- The text of some atoms. -/
def render (as : List Atom) : List Char := as.flatMap text

theorem render_map_char (cs : List Char) : render (cs.map char) = cs := by
  rw [render, List.flatMap_map]
  exact List.flatMap_singleton' cs

/-- The part of a text before the first closing square bracket, and the part after it. -/
def cutFlavor? : List Char → Option (List Char × List Char)
  | [] => none
  | c :: cs =>
    if c == ']' then some ([], cs) else (cutFlavor? cs).map fun (body, rest) => (c :: body, rest)

/-- Cutting loses nothing. -/
theorem eq_of_cutFlavor? {cs body rest : List Char} (h : cutFlavor? cs = some (body, rest)) :
    cs = body ++ ']' :: rest := by
  induction cs generalizing body with
  | nil => simp [cutFlavor?] at h
  | cons c cs ih =>
    simp only [cutFlavor?] at h
    split at h
    · rename_i hc
      simp_all
    · simp only [Option.map_eq_some_iff, Prod.mk.injEq] at h
      obtain ⟨⟨b, r⟩, hb, rfl, rfl⟩ := h
      simp [ih hb]

/-- What follows a flavor is shorter than the text it was cut from. -/
theorem length_of_cutFlavor? {cs body rest : List Char} (h : cutFlavor? cs = some (body, rest)) :
    rest.length < cs.length := by
  rw [eq_of_cutFlavor? h]
  simp only [List.length_append, List.length_cons]
  omega

/-- Takes a text apart. -/
def scan (cs : List Char) : List Atom :=
  match cs with
  | [] => []
  | c :: cs =>
    if c = '[' then
      match h : cutFlavor? cs with
      | some (body, rest) =>
        have := length_of_cutFlavor? h
        flavor body :: scan rest
      | none => char c :: scan cs
    else char c :: scan cs
termination_by cs.length
decreasing_by all_goals (simp only [List.length_cons]; omega)

/-- Taking a text apart loses nothing. -/
theorem render_scan (cs : List Char) : render (scan cs) = cs := by
  fun_induction scan cs with
  | case1 => rfl
  | case2 cs body rest h _ ih =>
    simp_all [render, text, eq_of_cutFlavor? h]
  | case3 cs h ih => simp_all [render, text]
  | case4 c cs h ih => simp_all [render, text]

end Atom

end DiceFormula
