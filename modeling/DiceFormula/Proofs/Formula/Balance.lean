import DiceFormula.Proofs.Formula.Spacing

/-!
# Brackets match in a formula

The scanner that looks for the end of a group counts brackets of one kind only, so a formula in
parentheses is only found again if the parentheses in it match by themselves. They do in every
formula that can be read, and so do the braces (`Formula.balanced_of_reads`): each kind closes its
own groups, and what stands inside a group is made of formulas again, which are read as well.
-/

namespace DiceFormula

open Atom (Balanced scan char balanced_normalize neat_of_mem_scan scan_render joined_cons
  level_joined joined_splitAt infix_of_mem_splitAt trim_subset)

variable {config : Config} {check : String → Except Error Unit} {g : Group}

/-! ## Groups are kept -/

namespace Piece

/-- A group that was cut out stays among the pieces. -/
theorem Extracts.group_mem {open? : Option Pending} {done : List Piece} {as : List Atom}
    {ps : List Piece} (h : Extracts ps open? done as) (hg : group g ∈ done) : group g ∈ ps := by
  induction h with
  | nil => exact List.mem_reverse.1 hg
  | inside loose level rest ih => exact ih hg
  | closing rest ih => exact ih (List.mem_cons_of_mem _ hg)
  | @opening b as done rest ih => exact ih (group_mem_openGroup hg b)
  | bare bare rest ih => exact ih (List.mem_cons_of_mem _ hg)

end Piece

namespace FormulaToken

/-- The group is part of the token. -/
def Holds (g : Group) : FormulaToken → Prop
  | sign _ => False
  | value ps => .group g ∈ ps

/-- Every group is part of a token. -/
theorem holds_ofPieces {ps : List Piece} (h : .group g ∈ ps) : ∃ t ∈ ofPieces ps, t.Holds g := by
  have kept : .group g ∈ (ofPieces ps).flatMap pieces := by
    rw [flatMap_pieces_ofPieces]
    exact List.mem_filter.2 ⟨h, rfl⟩
  obtain ⟨t, ht, hg⟩ := List.mem_flatMap.1 kept
  cases t with
  | sign s => cases List.mem_singleton.1 hg
  | value qs => exact ⟨_, ht, hg⟩

end FormulaToken

namespace Formula

theorem exists_groupTerm_of_allTerms {tokens : List FormulaToken} {ts : List Term}
    (h : allTerms check config tokens = .ok ts) (hg : ∃ token ∈ tokens, token.Holds g) :
    ∃ s, ∃ t ∈ ts, groupTerm check config g s = .ok t := by
  induction tokens generalizing ts with
  | nil =>
    obtain ⟨_, hm, -⟩ := hg
    cases hm
  | cons token tokens ih =>
    rw [allTerms_cons] at h
    obtain ⟨us, hus, h⟩ := bind_eq_ok.1 h
    obtain ⟨vs, hvs, h⟩ := bind_eq_ok.1 h
    obtain rfl := Except.ok.inj h
    obtain ⟨token', hm, holds⟩ := hg
    rcases List.mem_cons.1 hm with rfl | hm
    · have found : ∃ s, ∃ t ∈ us, groupTerm check config g s = .ok t := by
        cases token' with
        | sign s => cases holds
        | value ps =>
          have groups : (Piece.groups ps).isEmpty = false := by
            rw [List.isEmpty_eq_false_iff_exists_mem]
            exact ⟨g, List.mem_filterMap.2 ⟨_, holds, rfl⟩⟩
          rw [tokenTerms, groups] at hus
          exact exists_groupTerm_of_segmentTerms hus (group_mem_segments holds)
      obtain ⟨s, t, ht, made⟩ := found
      exact ⟨s, t, List.mem_append_left _ ht, made⟩
    · obtain ⟨s, t, ht, made⟩ := ih hvs ⟨token', hm, holds⟩
      exact ⟨s, t, List.mem_append_right _ ht, made⟩

/-- **Every group of a formula makes a term.** -/
theorem exists_groupTerm_of_readBy {formula : String} {ts : List Term}
    (h : readBy check config formula = .ok ts) :
    ∃ ps, Piece.ofText (normalize formula) = .ok ps
      ∧ ∀ g, Piece.group g ∈ ps → ∃ s, ∃ t ∈ ts, groupTerm check config g s = .ok t := by
  obtain ⟨-, -, ps, us, hps, hus, hts⟩ := readBy_eq_ok.1 h
  refine ⟨ps, hps, fun g hg => ?_⟩
  obtain ⟨s, t, ht, made⟩ := exists_groupTerm_of_allTerms hus (FormulaToken.holds_ofPieces hg)
  refine ⟨s, t, ?_, made⟩
  rcases (of_validateTerms hts).1 with rfl | rfl
  · exact ht
  · exact List.mem_cons_of_mem _ ht

end Formula

/-! ## Levels -/

namespace Bracket

theorem level_add {b : Bracket} {as : List Atom} {d d' : Nat} (h : b.level d as = some d')
    (k : Nat) :
    b.level (d + k) as = some (d' + k) := by
  fun_induction level b d as with
  | case1 d => rw [← Option.some.inj h, level]
  | case2 d c as opens ih =>
    simp only [level, opens, if_true, Nat.add_right_comm d k 1]
    exact ih h
  | case3 => cases h
  | case4 c as opens closes d ih =>
    simp only [Nat.succ_eq_add_one, Nat.add_right_comm d 1 k, level, opens, closes, if_true]
    exact ih h
  | case5 d c as opens closes ih =>
    simp only [level, opens, closes]
    exact ih h
  | case6 d body as ih => exact ih h

/-- A group does not change how many brackets are open. -/
theorem level_group {b : Bracket} {as : List Atom} (h : b.level 0 as = some 0) (b' : Bracket)
    (depth : Nat) (rest : List Atom) :
    b.level depth (.char b'.opening :: (as ++ .char b'.closing :: rest)) = b.level depth rest := by
  have inside (d : Nat) : b.level d as = some d := by
    have := level_add h d
    rwa [Nat.zero_add] at this
  cases b <;> cases b' <;>
    simp [level, level_append, inside, opening, closing]

end Bracket

theorem Atom.Bare.level_cons {a : Atom} (h : a.Bare) (b : Bracket) (depth : Nat)
    (as : List Atom) : b.level depth (a :: as) = b.level depth as := by
  cases a with
  | flavor body => rfl
  | char c =>
    obtain ⟨-, opens, closes⟩ := h
    have notOpening : c ≠ b.opening := by
      rintro rfl
      cases b <;> cases opens
    have notClosing : c ≠ b.closing := by
      rintro rfl
      cases b <;> cases closes
    simp [Bracket.level, notOpening, notClosing]

namespace Piece

/-- What is still to be read closes the open group, of which `ps` has the whole, and has matching
brackets behind it. -/
def Matched (ps : List Piece) (as : List Atom) : Option Pending → Prop
  | none => ∀ b : Bracket, b.level 0 as = some 0
  | some p => ∃ before rest, as = before ++ .char p.bracket.closing :: rest
    ∧ (∃ g : Group, .group g ∈ ps
      ∧ g.inner = String.ofList (Blank.trim (Atom.render (p.inner.reverse ++ before))))
    ∧ ∀ b : Bracket, b.level 0 rest = some 0

theorem Extracts.not_mem {open? : Option Pending} {done : List Piece} {as : List Atom}
    {ps : List Piece} (h : Extracts ps open? done as) : Atom.char '[' ∉ as := by
  induction h with
  | nil => exact List.not_mem_nil
  | inside loose level rest ih => exact List.not_mem_cons_of_ne_of_not_mem loose.symm ih
  | @closing b fn inner as done rest ih =>
    exact List.not_mem_cons_of_ne_of_not_mem (fun e => b.closing_ne (Atom.char.inj e).symm) ih
  | @opening b as done rest ih =>
    exact List.not_mem_cons_of_ne_of_not_mem (fun e => b.opening_ne (Atom.char.inj e).symm) ih
  | bare bare rest ih =>
    refine List.not_mem_cons_of_ne_of_not_mem ?_ ih
    rintro rfl
    exact bare.1 rfl

/-- Brackets match in the text if they do inside its groups. -/
theorem Extracts.matched {open? : Option Pending} {done : List Piece} {as : List Atom}
    {ps : List Piece} (h : Extracts ps open? done as) (neat : ∀ a ∈ as, a.Neat)
    (inside : ∀ g, group g ∈ ps → Balanced (Atom.scan g.inner.toList)) :
    Matched ps as open? := by
  induction h with
  | nil => exact fun b => rfl
  | @inside b fn depth d inner as a done loose level rest ih =>
    obtain ⟨before, behind, rfl, ⟨g, hg, text⟩, level⟩ := ih (List.forall_mem_cons.1 neat).2
    refine ⟨a :: before, behind, rfl, ⟨g, hg, ?_⟩, level⟩
    rw [text, reverse_append_cons]
  | @closing b fn inner as done rest ih =>
    refine ⟨[], as, rfl, ⟨_, rest.group_mem List.mem_cons_self, ?_⟩,
      ih (List.forall_mem_cons.1 neat).2⟩
    rw [Pending.close, List.append_nil]
  | @opening b as done rest ih =>
    have neat := (List.forall_mem_cons.1 neat).2
    obtain ⟨fn, gap, left, opened, -⟩ := head_openGroup b done
    rw [opened] at ih
    obtain ⟨before, behind, rfl, ⟨g, hg, text⟩, level⟩ := ih neat
    have balanced : Balanced before := by
      have := inside g hg
      rw [text, String.toList_ofList] at this
      exact Atom.balanced_of_trim (fun a ha => neat a (List.mem_append_left _ ha)) this
    intro b'
    rw [Bracket.level_group (balanced.level b'), level]
  | @bare a as done bare rest ih =>
    have level := ih (List.forall_mem_cons.1 neat).2
    exact fun b => (bare.level_cons b 0 as).trans (level b)

end Piece

/-! ## Formulas -/

namespace Formula

/-- Parts with matching brackets make a text with matching brackets. -/
theorem level_joined_of_forall {b : Bracket} {ps : List (List Atom)}
    (h : ∀ p ∈ ps, b.level 0 p = some 0) : b.level 0 (Atom.joined ps) = some 0 := by
  induction ps with
  | nil => rfl
  | cons p ps ih =>
    obtain ⟨hp, hps⟩ := List.forall_mem_cons.1 h
    by_cases last : ps = []
    · subst last
      rwa [Atom.joined, List.intercalate_singleton]
    · have comma : b.level 0 (char ',' :: Atom.joined ps) = b.level 0 (Atom.joined ps) := by
        cases b <;> rfl
      rw [joined_cons last, Bracket.level_append, hp, Option.bind_some, comma, ih hps]

/-- Brackets match in a text if they do in its arguments. -/
theorem balanced_of_arguments {inner : String} {args : List String}
    (h : arguments inner = .ok args) (balanced : ∀ a ∈ args, Balanced (scan a.toList)) :
    Balanced (scan inner.toList) := by
  obtain ⟨rfl, -, loose⟩ := parts_of_arguments h
  refine ⟨loose, fun b => ?_⟩
  have level : ∀ p ∈ parts inner, b.level 0 p = some 0 := by
    intro p hp
    have neat : ∀ a ∈ p, a.Neat := by
      intro a ha
      obtain ⟨part, hpart, rfl⟩ := List.mem_map.1 hp
      have stretch := infix_of_mem_splitAt hpart
      exact neat_of_mem_scan loose a (stretch.subset (trim_subset _ ha))
    have := (balanced _ (List.mem_map_of_mem hp)).level b
    rwa [String.toList_ofList, scan_render neat] at this
  have whole := level_joined_of_forall level
  rw [parts, level_joined, joined_splitAt] at whole
  exact whole

/-- **In a formula that can be read all brackets match.** -/
theorem balanced_of_reads {formula : String} {ts : List Term} (h : Reads config formula ts) :
    Balanced (scan formula.toList) := by
  induction hn : formula.length using Nat.strong_induction_on generalizing formula ts with
  | _ n ih =>
    obtain ⟨outline, inner⟩ := reads_iff.1 h
    have shorter := length_of_outline outline
    obtain ⟨ps, hps, groups⟩ := exists_groupTerm_of_readBy outline
    have inside : ∀ g, Piece.group g ∈ ps → Balanced (scan g.inner.toList) := by
      intro g hg
      obtain ⟨s, t, ht, made⟩ := groups g hg
      have formulas : ∀ a ∈ t.formulas, Balanced (scan a.toList) := by
        intro a ha
        obtain ⟨us, hus⟩ := inner t ht a ha
        exact ih a.length (hn ▸ shorter t ht a ha) hus rfl
      rcases (grouped_of_groupTerm made).formulas with single | args
      · exact formulas _ (single ▸ List.mem_singleton_self _)
      · exact balanced_of_arguments args formulas
    refine balanced_normalize ?_
    have cut := Piece.ofText_eq_ok_iff.1 hps
    rw [normalize, String.toList_ofList] at cut
    exact ⟨cut.not_mem, cut.matched (neat_of_mem_scan cut.not_mem) inside⟩

end Formula

end DiceFormula
