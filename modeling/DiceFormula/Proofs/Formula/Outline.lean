import DiceFormula.Proofs.Formula.Balance
import DiceFormula.Proofs.Formula.Marks
import DiceFormula.Proofs.Text.Padded
import Mathlib.Data.List.Forall2

/-!
# What is cut out of a formula

Cutting out the groups of a formula loses the white space directly inside their brackets and nothing
else (`Piece.outline_or_unmatched`), but for a line feed between the name of a function and its
parenthesis (`Piece.line_feed_is_lost`). `Outline` says how a formula is made of its groups and of
what stands between them; a formula without an outline is refused for a bracket.
-/

namespace DiceFormula

open Atom (scan)
open Marked (read numbers refill)

/-! ## The closing bracket -/

namespace Bracket

/-- What was found, with an atom more in front of the bracket. -/
def within (a : Atom) (found : Option (List Atom × List Atom)) : Option (List Atom × List Atom) :=
  found.map fun (inside, rest) => (a :: inside, rest)

/-- Looks for the closing bracket of a group and counts the brackets of its kind on the way, of
which `depth` are open inside the group: what stands before it, and what behind it. Flavors are
skipped. -/
def findClosing (b : Bracket) : Nat → List Atom → Option (List Atom × List Atom)
  | _, [] => none
  | depth, .char c :: as =>
    if c == b.opening then within (.char c) (b.findClosing (depth + 1) as)
    else if c == b.closing then
      match depth with
      | 0 => some ([], as)
      | depth + 1 => within (.char c) (b.findClosing depth as)
    else within (.char c) (b.findClosing depth as)
  | depth, .flavor body :: as => within (.flavor body) (b.findClosing depth as)

variable {b : Bracket} {depth : Nat} {inside rest : List Atom}

theorem of_within {a : Atom} {found : Option (List Atom × List Atom)}
    (h : within a found = some (inside, rest)) :
    ∃ before, inside = a :: before ∧ found = some (before, rest) := by
  obtain ⟨⟨before, _⟩, found, e⟩ := Option.map_eq_some_iff.1 h
  obtain ⟨rfl, rfl⟩ := Prod.mk.inj e
  exact ⟨before, rfl, found⟩

theorem findClosing_append (h : b.level depth inside = some 0) (rest : List Atom) :
    b.findClosing depth (inside ++ .char b.closing :: rest) = some (inside, rest) := by
  have notOpening : (b.closing == b.opening) = false := by cases b <;> rfl
  fun_induction level b depth inside with
  | case1 depth =>
    obtain rfl := Option.some.inj h
    simp [findClosing, notOpening]
  | case2 depth c as opens ih => simp [findClosing, within, opens, ih h]
  | case3 => cases h
  | case4 c as opens closes depth ih => simp [findClosing, within, opens, closes, ih h]
  | case5 depth c as opens closes ih => simp [findClosing, within, opens, closes, ih h]
  | case6 depth body as ih => simp [findClosing, within, ih h]

theorem of_findClosing {as : List Atom} (h : b.findClosing depth as = some (inside, rest)) :
    as = inside ++ .char b.closing :: rest ∧ b.level depth inside = some 0 := by
  fun_induction findClosing b depth as generalizing inside with
  | case1 => cases h
  | case2 depth c as opens ih =>
    obtain ⟨before, rfl, found⟩ := of_within h
    obtain ⟨rfl, level⟩ := ih found
    exact ⟨rfl, by simpa [Bracket.level, opens] using level⟩
  | case3 c as opens closes =>
    obtain ⟨rfl, rfl⟩ := Prod.mk.inj (Option.some.inj h)
    rw [beq_iff_eq.1 closes]
    exact ⟨rfl, rfl⟩
  | case4 c as opens closes depth ih | case5 depth c as opens closes ih =>
    obtain ⟨before, rfl, found⟩ := of_within h
    obtain ⟨rfl, level⟩ := ih found
    exact ⟨rfl, by simpa [Bracket.level, opens, closes] using level⟩
  | case6 depth body as ih =>
    obtain ⟨before, rfl, found⟩ := of_within h
    obtain ⟨rfl, level⟩ := ih found
    exact ⟨rfl, level⟩

end Bracket

/-! ## Outlines -/

theorem Group.Head.outside {b : Bracket} {fn : Option String} {gap : List Char}
    (h : Head b fn gap) : ∀ c ∈ (fn.getD "").toList ++ gap, (Atom.char c).Outside := by
  intro c hc
  rcases List.mem_append.1 hc with hc | hc
  · cases fn with
    | none => exact absurd hc List.not_mem_nil
    | some name =>
      obtain ⟨-, -, -, -, -, -, alphanum⟩ := h.name name rfl
      exact Atom.outside_of_isAlphanum (alphanum c hc)
  · rcases h.gap with rfl | ⟨rfl, -⟩
    · exact absurd hc List.not_mem_nil
    · obtain rfl := List.mem_singleton.1 hc
      exact ⟨by decide, rfl, rfl⟩

/-- The group stands in a formula with `gap` before its bracket, `left` and `right` around its text
and `rest` behind it. -/
structure Group.Stands (g : Group) (gap left right rest : List Char) : Prop where
  head : Head g.bracket g.fn gap
  blank : Blank.Gap left ∧ Blank.Gap right
  trimmed : Blank.trim g.inner.toList = g.inner.toList
  loose : Atom.char '[' ∉ scan (left ++ (g.inner.toList ++ right))
  found :
    g.bracket.findClosing 0 (scan (left ++ (g.inner.toList ++ (right ++ g.bracket.closing :: rest))))
      = some (scan (left ++ (g.inner.toList ++ right)), scan rest)

/-- A formula, its outermost groups, and the formula again, without the white space directly inside
the brackets of these groups. -/
inductive Outline : List Char → List Group → List Char → Prop
  | nil : Outline [] [] []
  | atom {a : Atom} {cs ds : List Char} {gs : List Group} (outside : a.Outside)
      (rest : Outline cs gs ds) : Outline (a.text ++ cs) gs (a.text ++ ds)
  | group {g : Group} {gap left right cs ds : List Char} {gs : List Group}
      (stands : g.Stands gap left right cs) (rest : Outline cs gs ds) :
      Outline (g.name ++ (gap ++ g.bracket.opening ::
          (left ++ (g.inner.toList ++ (right ++ g.bracket.closing :: cs)))))
        (g :: gs) (g.written ++ ds)

/-! ## What pieces were read from -/

namespace Piece

/-- The piece was read from these atoms. -/
inductive Spans : Piece → List Atom → Prop
  | atom {a : Atom} (outside : a.Outside) : Spans (.atom a) [a]
  | group {g : Group} {gap : List Char} {inside : List Atom} (head : Group.Head g.bracket g.fn gap)
      (neat : ∀ a ∈ inside, a.Neat) (level : g.bracket.level 0 inside = some 0)
      (inner : g.inner = String.ofList (Blank.trim (Atom.render inside))) :
      Spans (.group g) ((g.name ++ gap).map .char
        ++ .char g.bracket.opening :: (inside ++ [.char g.bracket.closing]))

/-- Characters were read from themselves. -/
theorem forall₂_spans_chars {cs : List Char} {ps : List Piece} {spans : List (List Atom)}
    (h : List.Forall₂ Spans (cs.map (fun c => .atom (.char c)) ++ ps) spans) :
    ∃ spans', List.Forall₂ Spans ps spans'
      ∧ spans.reverse.flatten = spans'.reverse.flatten ++ cs.reverse.map .char := by
  induction cs generalizing spans with
  | nil => exact ⟨spans, h, by simp⟩
  | cons c cs ih =>
    rw [List.map_cons, List.cons_append, List.forall₂_cons_left_iff] at h
    obtain ⟨span, others, first, rest, rfl⟩ := h
    cases first
    obtain ⟨spans', hps, whole⟩ := ih rest
    exact ⟨spans', hps, by simp [whole]⟩

/-- All atoms but `as` were read: the pieces so far, last one first, and the beginning of the group
that is open. -/
def Covered (all as : List Atom) (done : List Piece) : Option Pending → Prop
  | none => ∃ spans, List.Forall₂ Spans done spans ∧ all = spans.reverse.flatten ++ as
  | some p => ∃ spans gap, List.Forall₂ Spans done spans ∧ Group.Head p.bracket p.fn gap
    ∧ all = spans.reverse.flatten ++ (((p.fn.getD "").toList ++ gap).map .char
      ++ .char p.bracket.opening :: (p.inner.reverse ++ as))

variable {all as : List Atom} {done : List Piece}

theorem Covered.atom {a : Atom} (h : Covered all (a :: as) done none) (outside : a.Outside) :
    Covered all as (.atom a :: done) none := by
  obtain ⟨spans, hdone, rfl⟩ := h
  exact ⟨[a] :: spans, .cons (.atom outside) hdone, by simp⟩

theorem Covered.opened {b : Bracket} (h : Covered all (.char b.opening :: as) done none) :
    Covered all as (openGroup b done).2 (some (openGroup b done).1) := by
  obtain ⟨spans, hdone, rfl⟩ := h
  obtain ⟨fn, gap, rest, opened, head, rfl⟩ := head_openGroup b done
  obtain ⟨spans', hrest, whole⟩ := forall₂_spans_chars hdone
  rw [opened, whole, List.reverse_reverse]
  exact ⟨spans', gap, hrest, head, by simp⟩

variable {b : Bracket} {fn : Option String} {depth : Nat} {inner : List Atom}

theorem Covered.read {a : Atom} (h : Covered all (a :: as) done (some ⟨b, fn, depth, inner⟩))
    (d : Nat) : Covered all as done (some ⟨b, fn, d, a :: inner⟩) := by
  obtain ⟨spans, gap, hdone, head, whole⟩ := h
  exact ⟨spans, gap, hdone, head, by rwa [reverse_append_cons]⟩

theorem Covered.closed (h : Covered all (.char b.closing :: as) done (some ⟨b, fn, 0, inner⟩))
    (reading : Reading all (.char b.closing :: as) (some ⟨b, fn, 0, inner⟩))
    (flavors : ∀ body, Atom.flavor body ∈ all → ']' ∉ body) :
    Covered all as (.group (Pending.close ⟨b, fn, 0, inner⟩) :: done) none := by
  obtain ⟨spans, gap, hdone, head, whole⟩ := h
  obtain ⟨suffix, loose, level, -⟩ := reading
  have inside : inner.reverse ⊆ all := List.Subset.trans (List.subset_append_left _ _) suffix.subset
  have neat : ∀ a ∈ inner.reverse, a.Neat := by
    intro a ha
    cases a with
    | char c =>
      rintro rfl
      exact loose (List.mem_reverse.1 ha)
    | flavor body => exact flavors body (inside ha)
  refine ⟨_ :: spans, .cons (.group head neat level rfl) hdone, ?_⟩
  rw [whole]
  simp [Group.name, Pending.close]

/-- **A formula is made of what its pieces were read from.** -/
theorem Extracts.spans {open? : Option Pending} {ps : List Piece} (h : Extracts ps open? done as)
    (flavors : ∀ body, Atom.flavor body ∈ all → ']' ∉ body) (reading : Reading all as open?)
    (covered : Covered all as done open?) :
    ∃ spans, List.Forall₂ Spans ps spans ∧ all = spans.flatten := by
  induction h with
  | nil =>
    obtain ⟨spans, hdone, rfl⟩ := covered
    exact ⟨spans.reverse, List.forall₂_reverse_iff.1 (by simpa using hdone), by simp⟩
  | inside loose level rest ih => exact ih (reading.read loose level) (covered.read _)
  | closing rest ih => exact ih reading.closed.2 (covered.closed reading flavors)
  | @opening b as done rest ih => exact ih (reading.opened b done) covered.opened
  | bare bare rest ih =>
    have suffix := reading
    have outside := bare.outside fun body e => flavors body (suffix.subset (e ▸ List.mem_cons_self))
    exact ih ((List.suffix_cons _ _).trans suffix) (covered.atom outside)

theorem forall₂_spans_of_ofText {formula : String} {ps : List Piece}
    (h : ofText formula = .ok ps) :
    ∃ spans, List.Forall₂ Spans ps spans ∧ scan formula.toList = spans.flatten :=
  (ofText_eq_ok_iff.1 h).spans (fun _ => Atom.not_mem_of_mem_scan) (List.suffix_refl _)
    ⟨[], .nil, rfl⟩

/-- The group stands where it was read. -/
theorem stands_of_neat {g : Group} {gap : List Char} {inside : List Atom}
    (head : Group.Head g.bracket g.fn gap) (neat : ∀ a ∈ inside, a.Neat)
    (level : g.bracket.level 0 inside = some 0)
    (inner : g.inner = String.ofList (Blank.trim (Atom.render inside))) (cs : List Char) :
    ∃ left right, Atom.render inside = left ++ (g.inner.toList ++ right)
      ∧ g.Stands gap left right cs := by
  have text : g.inner.toList = Blank.trim (Atom.render inside) := by
    rw [inner, String.toList_ofList]
  obtain ⟨left, right, padded, hleft, hright⟩ := Blank.exists_trim (Atom.render inside)
  rw [← text] at padded
  have whole : left ++ (g.inner.toList ++ (right ++ g.bracket.closing :: cs))
      = Atom.render inside ++ g.bracket.closing :: cs := by
    rw [padded, List.append_assoc, List.append_assoc]
  refine ⟨left, right, padded, head, ⟨hleft, hright⟩, by rw [text, Blank.trim_trim], ?_, ?_⟩
  · rw [← padded, Atom.scan_render neat]
    exact fun loose => neat _ loose rfl
  · rw [whole, ← padded, Atom.scan_render neat, Atom.scan_render_append neat, scan,
      if_neg g.bracket.closing_ne]
    exact Bracket.findClosing_append level _

/-- What pieces were read from has the outline that they show. -/
theorem outline_of_spans {ps : List Piece} {spans : List (List Atom)}
    (h : List.Forall₂ Spans ps spans) :
    Outline (Atom.render spans.flatten) (groups ps) (ps.flatMap written) := by
  induction h with
  | nil => exact .nil
  | @cons p span ps spans hp hps ih =>
    rw [List.flatten_cons, Atom.render_append, List.flatMap_cons]
    cases hp with
    | @atom a outside =>
      have text : Atom.render [a] = a.text := by rw [Atom.render, List.flatMap_singleton]
      rw [text]
      exact .atom outside ih
    | @group g gap inside head neat level inner =>
      obtain ⟨left, right, padded, stands⟩ :=
        stands_of_neat head neat level inner (Atom.render spans.flatten)
      have span : Atom.render ((g.name ++ gap).map Atom.char ++ .char g.bracket.opening
            :: (inside ++ [.char g.bracket.closing])) ++ Atom.render spans.flatten
          = g.name ++ (gap ++ g.bracket.opening :: (left ++ (g.inner.toList
            ++ (right ++ g.bracket.closing :: Atom.render spans.flatten)))) := by
        have last : Atom.render [.char g.bracket.closing] = [g.bracket.closing] := rfl
        simp [Atom.render_append, Atom.render_cons, Atom.render_map_char, last, padded, Atom.text,
          -List.map_append]
      rw [span]
      exact .group stands ih

/-- **A formula with an outline is cut up.** -/
theorem exists_extract_of_outline {cs ds : List Char} {gs : List Group} (h : Outline cs gs ds)
    (text : String) (done : List Piece) : ∃ ps, extract text none done (scan cs) = .ok ps := by
  induction h generalizing done with
  | nil => exact ⟨done.reverse, by rw [scan, extract]⟩
  | @atom a cs ds gs outside rest ih =>
    rw [outside.neat.scan_append, extract_bare outside.bare]
    exact ih _
  | @group g gap left right cs ds gs stands rest ih =>
    obtain ⟨whole, level⟩ := Bracket.of_findClosing stands.found
    have outside := stands.head.outside
    have plain : '[' ∉ (g.fn.getD "").toList ++ gap := fun hm => (outside _ hm).1 rfl
    have names : ∀ a ∈ ((g.fn.getD "").toList ++ gap).map Atom.char, a.Outside := by
      intro a ha
      obtain ⟨c, hc, rfl⟩ := List.mem_map.1 ha
      exact outside c hc
    obtain ⟨fn, gap', done', opened, -⟩ := head_openGroup g.bracket
      ((((g.fn.getD "").toList ++ gap).map Atom.char).reverse.map Piece.atom ++ done)
    rw [Group.name, ← List.append_assoc, Atom.scan_append_of_not_mem plain, extract_append names,
      scan, if_neg g.bracket.opening_ne, whole, extract_enclosed stands.loose level opened]
    exact ih _

/-- An error is about a bracket. -/
theorem unmatched_of_extract {text : String} {open? : Option Pending} {e : ParseFault}
    (h : extract text open? done as = .error e) :
    ∃ c ∈ ['[', '(', ')', '\x7b', '\x7d'], e = .unmatched c text := by
  fun_induction extract text open? done as with
  | case1 => cases h
  | case2 p done =>
    obtain rfl := Except.error.inj h
    refine ⟨_, ?_, rfl⟩
    cases p.bracket <;> decide
  | case3 =>
    obtain rfl := Except.error.inj h
    exact ⟨_, by decide, rfl⟩
  | case4 _ _ _ _ _ _ _ ih | case5 _ _ _ _ _ _ _ ih | case6 _ _ _ _ _ _ _ _ _ ih
  | case8 _ _ _ _ _ _ ih | case9 _ _ _ _ _ ih => exact ih h
  | case7 done c as loose hopening hclosing =>
    obtain rfl := Except.error.inj h
    obtain ⟨b, -, closes⟩ := List.any_eq_true.1 hclosing
    refine ⟨c, ?_, rfl⟩
    rw [← beq_iff_eq.1 closes]
    cases b <;> decide

/-! ## Nothing else is lost -/

theorem unmarked_of_ofText {formula : String} {ps : List Piece} (plain : '$' ∉ formula.toList)
    (h : ofText formula = .ok ps) : Unmarked ps := by
  intro a ha dollar
  refine plain ?_
  rw [← Atom.render_scan formula.toList]
  exact List.mem_flatMap.2 ⟨a, (mem_of_ofText h ha).1, dollar⟩

/-- The text and the groups that are cut out of it give back the formula: the marks count the
groups, all dollar signs belong to marks, brackets stand in flavors only, and with the groups in the
places of their marks the text is the formula, up to the white space that its outline leaves out. -/
structure Recovers (formula text : List Char) (gs : List Group) : Prop where
  marks : numbers text = List.range gs.length
  dollars : Marked.char '$' ∉ read text
  flat : ∀ a ∈ scan text, a.Outside
  outline : Outline formula gs (refill gs text)

/-- **Cutting out groups loses nothing but the white space inside their brackets**, and perhaps a
line feed behind the name of a function. A formula is refused, for one of its brackets, if it has no
outline, and only then. -/
theorem outline_or_unmatched {formula : String} (plain : '$' ∉ formula.toList) :
    (∃ ps, ofText formula = .ok ps
        ∧ Recovers formula.toList (render ps).toList (groups ps))
      ∨ (∃ c ∈ ['[', '(', ')', '\x7b', '\x7d'], ofText formula = .error (.unmatched c formula))
        ∧ ¬ ∃ gs cs, Outline formula.toList gs cs := by
  cases cut : ofText formula with
  | ok ps =>
    have unmarked := unmarked_of_ofText plain cut
    obtain ⟨spans, hspans, whole⟩ := forall₂_spans_of_ofText cut
    have outline := outline_of_spans hspans
    rw [← whole, Atom.render_scan, ← refill_render unmarked] at outline
    refine .inl ⟨ps, rfl, numbers_render unmarked, ?_, ?_, outline⟩
    · rw [render, String.toList_ofList]
      exact dollar_not_mem_read unmarked 0
    · intro a ha
      rw [render, String.toList_ofList] at ha
      exact outside_of_mem_scan_renderFrom (fun b hb => (mem_of_ofText cut hb).2) ha
  | error e =>
    obtain ⟨c, hc, rfl⟩ := unmatched_of_extract cut
    refine .inr ⟨⟨c, hc, rfl⟩, ?_⟩
    rintro ⟨gs, cs, outline⟩
    obtain ⟨ps, extracted⟩ := exists_extract_of_outline outline formula []
    rw [ofText, extracted] at cut
    cases cut

/-- A call with a group in its arguments, a flavor with a bracket, and a pool; and a parenthesis
that a flavor closes only to the eye. -/
theorem outline_or_unmatched_call :
    '$' ∉ "max( 1,(2) )[a(b]+\x7b 3 \x7d".toList
      ∧ (∃ ps, ofText "max( 1,(2) )[a(b]+\x7b 3 \x7d" = .ok ps
        ∧ render ps = "$$F0$$[a(b]+$$F1$$"
        ∧ groups ps = [⟨.paren, some "max", "1,(2)"⟩, ⟨.brace, none, "3"⟩]
        ∧ Recovers "max( 1,(2) )[a(b]+\x7b 3 \x7d".toList (render ps).toList (groups ps))
      ∧ '$' ∉ "(1[)]".toList
      ∧ ofText "(1[)]" = .error (.unmatched '(' "(1[)]")
      ∧ ¬ ∃ gs cs, Outline "(1[)]".toList gs cs := by
  have plain : '$' ∉ "max( 1,(2) )[a(b]+\x7b 3 \x7d".toList := by decide
  have plain' : '$' ∉ "(1[)]".toList := by decide
  have shown : (ofText "max( 1,(2) )[a(b]+\x7b 3 \x7d").toOption.map
      (fun ps => (render ps, groups ps))
      = some ("$$F0$$[a(b]+$$F1$$", [⟨.paren, some "max", "1,(2)"⟩, ⟨.brace, none, "3"⟩]) := by
    decide +kernel
  have unmatched : ofText "(1[)]" = .error (.unmatched '(' "(1[)]") := by decide +kernel
  refine ⟨plain, ?_, plain', unmatched, ?_⟩
  · rcases outline_or_unmatched plain with ⟨ps, cut, recovers⟩ | ⟨⟨c, -, cut⟩, -⟩ <;>
      rw [cut] at shown
    · obtain ⟨rendered, cutOut⟩ := Prod.mk.inj (Option.some.inj shown)
      exact ⟨ps, cut, rendered, cutOut, recovers⟩
    · cases shown
  · rcases outline_or_unmatched plain' with ⟨ps, cut, -⟩ | ⟨-, none⟩
    · rw [unmatched] at cut
      cases cut
    · exact none

/-- The line feed between the name of a function and its parenthesis is lost, where a tab stays. -/
theorem line_feed_is_lost :
    (∃ ps, ofText "abs\n(3)" = .ok ps ∧ render ps = "$$F0$$"
        ∧ groups ps = [⟨.paren, some "abs", "3"⟩]
        ∧ refill (groups ps) (render ps).toList ≠ "abs\n(3)".toList
        ∧ refill (groups ps) (render ps).toList = "abs(3)".toList)
      ∧ ∃ ps, ofText "abs\t(3)" = .ok ps ∧ render ps = "abs\t$$F0$$"
        ∧ groups ps = [⟨.paren, none, "3"⟩]
        ∧ refill (groups ps) (render ps).toList = "abs\t(3)".toList := by
  refine ⟨⟨[.group ⟨.paren, some "abs", "3"⟩], ?_, ?_, ?_, ?_, ?_⟩,
    "abs\t".toList.map (fun c => .atom (.char c)) ++ [.group ⟨.paren, none, "3"⟩], ?_, ?_, ?_, ?_⟩
    <;> decide +kernel

end Piece

end DiceFormula
