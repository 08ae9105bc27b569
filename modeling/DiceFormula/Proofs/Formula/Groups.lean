import DiceFormula.Proofs.Formula.Nesting

/-!
# What stands in a group

A group that is cut out of a formula holds a stretch of its atoms, without the white space around
it: no bracket of its kind is left open in the stretch, or closed that was not opened there
(`Bracket.level`), and no square bracket stands there alone. The name of a function is a word
(`Group.IsName`). `Group.CutFrom` says all this, and `Piece.cutFrom_of_ofText` that it holds of all
groups of a formula.
-/

namespace DiceFormula

/-- The group holds a stretch of the atoms. -/
structure Group.CutFrom (all : List Atom) (g : Group) : Prop where
  inner : ∃ as, as <:+: all ∧ g.inner = String.ofList (Blank.trim (Atom.render as))
    ∧ Atom.char '[' ∉ as ∧ g.bracket.level 0 as = some 0
  fn : ∀ name, g.fn = some name → g.bracket = .paren ∧ IsName name.toList

namespace Piece

/-- What is known of the group being read, if there is one, when `as` is still to be read. -/
def Reading (all as : List Atom) : Option Pending → Prop
  | none => as <:+ all
  | some p => p.inner.reverse ++ as <:+ all ∧ Atom.char '[' ∉ p.inner
    ∧ p.bracket.level 0 p.inner.reverse = some p.depth
    ∧ ∀ name, p.fn = some name → p.bracket = .paren ∧ Group.IsName name.toList

theorem reverse_append_cons {α : Type} (xs ys : List α) (a : α) :
    (a :: xs).reverse ++ ys = xs.reverse ++ a :: ys := by simp

variable {all as : List Atom} {b : Bracket} {fn : Option String} {depth d : Nat}
  {inner : List Atom}

theorem Reading.read {a : Atom} (h : Reading all (a :: as) (some ⟨b, fn, depth, inner⟩))
    (ha : a ≠ .char '[') (ho : b.level depth [a] = some d) :
    Reading all as (some ⟨b, fn, d, a :: inner⟩) := by
  obtain ⟨suffix, loose, level, name⟩ := h
  refine ⟨?_, List.not_mem_cons_of_ne_of_not_mem ha.symm loose, ?_, name⟩
  · rwa [reverse_append_cons]
  · rw [List.reverse_cons, Bracket.level_append, level]
    exact ho

theorem Reading.closed (h : Reading all (.char b.closing :: as) (some ⟨b, fn, 0, inner⟩)) :
    (Pending.close ⟨b, fn, 0, inner⟩).CutFrom all ∧ as <:+ all := by
  obtain ⟨suffix, loose, level, name⟩ := h
  refine ⟨⟨⟨inner.reverse, ?_, rfl, ?_, level⟩, name⟩, ?_⟩
  · exact (List.prefix_append _ _).isInfix.trans suffix.isInfix
  · rwa [List.mem_reverse]
  · exact ((List.suffix_cons _ _).trans (List.suffix_append _ _)).trans suffix

theorem Reading.opened {c : Char} (h : Reading all (.char c :: as) none) (b : Bracket)
    (done : List Piece) : Reading all as (some (openGroup b done).1) := by
  obtain ⟨fn, gap, rest, opened, head, -⟩ := head_openGroup b done
  rw [opened]
  exact ⟨(List.suffix_cons _ _).trans h, List.not_mem_nil, rfl, head.name⟩

theorem Extracts.cutFrom {open? : Option Pending} {done ps : List Piece}
    (h : Extracts ps open? done as) (reading : Reading all as open?) {g : Group}
    (hg : Piece.group g ∈ ps) : Piece.group g ∈ done ∨ g.CutFrom all := by
  induction h with
  | nil => exact .inl (List.mem_reverse.2 hg)
  | inside loose level rest ih => exact ih (reading.read loose level)
  | closing rest ih =>
    obtain ⟨whole, suffix⟩ := reading.closed
    refine (ih suffix).elim (fun hm => ?_) .inr
    rcases List.mem_cons.1 hm with hm | hm
    · obtain rfl := Piece.group.inj hm
      exact .inr whole
    · exact .inl hm
  | @opening b as done rest ih =>
    exact (ih (reading.opened b done)).imp_left fun hm => openGroup_subset b done hm
  | bare bare rest ih =>
    refine (ih ((List.suffix_cons _ _).trans reading)).imp_left fun hm => ?_
    exact (List.mem_cons.1 hm).resolve_left (by simp)

/-- **Every group of a formula holds a stretch of it.** -/
theorem cutFrom_of_ofText {formula : String} {ps : List Piece} (h : ofText formula = .ok ps)
    {g : Group} (hg : Piece.group g ∈ ps) : g.CutFrom (Atom.scan formula.toList) :=
  ((ofText_eq_ok_iff.1 h).cutFrom (List.suffix_refl _) hg).resolve_left List.not_mem_nil

end Piece

end DiceFormula
