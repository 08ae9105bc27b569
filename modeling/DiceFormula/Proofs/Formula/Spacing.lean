import DiceFormula.Proofs.Formula.Arguments

/-!
# White space and the atoms of a text

To take a text apart and to make its runs of white space single spaces can be done in either order
(`Atom.scan_squeezeFrom`), and white space at the ends is white space of the atoms
(`Atom.scan_trim`). So it does not matter for brackets and commas how a text is spaced: the text is
`Atom.Balanced` as it stands if it is so when it is normalized (`Atom.balanced_normalize`).
-/

namespace DiceFormula

namespace Blank

theorem isBlank_closeSquare : isBlank ']' = false := rfl

variable {c : Char}

theorem squeezeFrom_cons (h : isBlank c = false) (gap : Bool) (cs : List Char) :
    squeezeFrom gap (c :: cs) = c :: squeezeFrom false cs := by
  simp [squeezeFrom, h]

/-- A character that is no white space parts the runs before and behind it. -/
theorem squeezeFrom_append_cons (h : isBlank c = false) (gap : Bool) (cs ds : List Char) :
    squeezeFrom gap (cs ++ c :: ds) = squeezeFrom gap cs ++ c :: squeezeFrom false ds := by
  induction cs generalizing gap with
  | nil => exact squeezeFrom_cons h gap ds
  | cons e cs ih =>
    cases blank : isBlank e with
    | true =>
      cases gap <;> simp [squeezeFrom, blank, ih]
    | false => simp [squeezeFrom, blank, ih]

/-- What has no white space in front of a text stays as it is. -/
theorem squeezeFrom_append {cs : List Char} (h : ∀ c ∈ cs, isBlank c = false) (ds : List Char) :
    squeezeFrom false (cs ++ ds) = cs ++ squeezeFrom false ds := by
  induction cs with
  | nil => rfl
  | cons c cs ih =>
    obtain ⟨hc, hcs⟩ := List.forall_mem_cons.1 h
    rw [List.cons_append, squeezeFrom_cons hc, ih hcs, List.cons_append]

theorem squeezeFrom_of_forall {cs : List Char} (h : ∀ c ∈ cs, isBlank c = false) (gap : Bool) :
    squeezeFrom gap cs = cs := by
  induction cs generalizing gap with
  | nil => rfl
  | cons c cs ih =>
    obtain ⟨hc, hcs⟩ := List.forall_mem_cons.1 h
    rw [squeezeFrom_cons hc, ih hcs]

end Blank

namespace Atom

open Blank (isBlank_closeSquare squeezeFrom_cons)

/-! ## Runs of white space -/

/-- Makes every run of white space one space, also in flavors. -/
def squeezeFrom : Bool → List Atom → List Atom
  | _, [] => []
  | gap, char c :: as =>
    if Blank.isBlank c then
      if gap then squeezeFrom true as else char ' ' :: squeezeFrom true as
    else char c :: squeezeFrom false as
  | _, flavor body :: as => flavor (Blank.squeezeFrom false body) :: squeezeFrom false as

theorem cutFlavor?_squeezeFrom (gap : Bool) (cs : List Char) :
    cutFlavor? (Blank.squeezeFrom gap cs)
      = (cutFlavor? cs).map fun p => (Blank.squeezeFrom gap p.1, Blank.squeezeFrom false p.2) := by
  have space (cs : List Char) :
      cutFlavor? (' ' :: cs) = (cutFlavor? cs).map fun p => (' ' :: p.1, p.2) := rfl
  induction cs generalizing gap with
  | nil => rfl
  | cons c cs ih =>
    by_cases close : c = ']'
    · subst close
      rw [squeezeFrom_cons isBlank_closeSquare]
      rfl
    · have other (cs : List Char) :
          cutFlavor? (c :: cs) = (cutFlavor? cs).map fun p => (c :: p.1, p.2) := by
        rw [cutFlavor?, if_neg (by simpa using close)]
      rw [other, Option.map_map]
      cases blank : Blank.isBlank c with
      | false =>
        rw [squeezeFrom_cons blank, other, ih, Option.map_map]
        exact congrArg (fun f => (cutFlavor? cs).map f)
          (funext fun p => by simp [squeezeFrom_cons blank])
      | true =>
        cases gap with
        | false =>
          rw [Blank.squeezeFrom, if_pos blank, if_neg Bool.false_ne_true, space, ih, Option.map_map]
          exact congrArg (fun f => (cutFlavor? cs).map f)
            (funext fun p => by simp [Blank.squeezeFrom, blank])
        | true =>
          rw [Blank.squeezeFrom, if_pos blank, if_pos rfl, ih]
          exact congrArg (fun f => (cutFlavor? cs).map f)
            (funext fun p => by simp [Blank.squeezeFrom, blank])

/-- **Spaces can be made single before or after a text is taken apart.** -/
theorem scan_squeezeFrom (gap : Bool) (cs : List Char) :
    scan (Blank.squeezeFrom gap cs) = squeezeFrom gap (scan cs) := by
  fun_induction scan cs generalizing gap with
  | case1 => rw [Blank.squeezeFrom, scan, squeezeFrom]
  | case2 cs body rest hcut _ ih =>
    have cut := cutFlavor?_squeezeFrom false cs
    rw [hcut, Option.map_some] at cut
    rw [squeezeFrom_cons rfl, scan, if_pos rfl, squeezeFrom, ← ih]
    split
    · next e =>
      obtain ⟨rfl, rfl⟩ := Prod.mk.inj (Option.some.inj (e.symm.trans cut))
      rfl
    · next e => cases e.symm.trans cut
  | case3 cs hcut ih =>
    have cut := cutFlavor?_squeezeFrom false cs
    rw [hcut, Option.map_none] at cut
    rw [squeezeFrom_cons rfl, scan, if_pos rfl]
    split
    · next e => cases e.symm.trans cut
    · rw [ih]
      rfl
  | case4 c cs hc ih =>
    have space (cs : List Char) : scan (' ' :: cs) = char ' ' :: scan cs := by
      rw [scan, if_neg (by decide)]
    cases blank : Blank.isBlank c with
    | false => rw [squeezeFrom_cons blank, scan, if_neg hc, ih, squeezeFrom, blank,
        if_neg Bool.false_ne_true]
    | true => cases gap <;> simp [Blank.squeezeFrom, squeezeFrom, blank, space, ih]

/-- An atom that is no white space parts the runs before and behind it. -/
theorem squeezeFrom_append_cons {c : Char} (h : Blank.isBlank c = false) (gap : Bool)
    (as bs : List Atom) :
    squeezeFrom gap (as ++ char c :: bs) = squeezeFrom gap as ++ char c :: squeezeFrom false bs := by
  fun_induction squeezeFrom gap as with
  | case1 gap => simp [squeezeFrom, h]
  | case2 d as blank ih => simpa [squeezeFrom, blank] using ih
  | case3 gap d as blank first ih => simpa [squeezeFrom, blank, first] using ih
  | case4 gap d as blank ih => simpa [squeezeFrom, blank] using ih
  | case5 gap body as ih => simpa [squeezeFrom] using ih

theorem squeezeFrom_joined (ps : List (List Atom)) :
    squeezeFrom false (joined ps) = joined (ps.map (squeezeFrom false)) := by
  induction ps with
  | nil => rfl
  | cons p ps ih =>
    by_cases last : ps = []
    · subst last
      rw [List.map_singleton, joined, joined, List.intercalate_singleton,
        List.intercalate_singleton]
    · have full : ps.map (squeezeFrom false) ≠ [] := fun e => last (List.map_eq_nil_iff.1 e)
      rw [List.map_cons, joined_cons full, joined_cons last,
        squeezeFrom_append_cons (by decide : Blank.isBlank ',' = false), ih]

/-! ## Balanced texts -/

/-- In the text all brackets match, those of either kind for themselves, and no square bracket stands
alone. -/
structure Balanced (as : List Atom) : Prop where
  loose : char '[' ∉ as
  level : ∀ b : Bracket, b.level 0 as = some 0

variable {as bs : List Atom}

theorem level_cons_blank {a : Atom} (h : a.isBlank = true) (b : Bracket) (depth : Nat) :
    b.level depth (a :: as) = b.level depth as := by
  rw [← List.singleton_append, Bracket.level_append, (of_isBlank h).2.2, Option.bind_some]

theorem level_squeezeFrom (b : Bracket) (depth : Nat) (gap : Bool) (as : List Atom) :
    b.level depth (squeezeFrom gap as) = b.level depth as := by
  fun_induction squeezeFrom gap as generalizing depth with
  | case1 => rfl
  | case2 c as blank ih => rw [ih, level_cons_blank (a := char c) blank]
  | case3 gap c as blank _ ih =>
    rw [level_cons_blank (a := char c) blank, level_cons_blank (a := char ' ') rfl, ih]
  | case4 gap c as _ ih => simp only [Bracket.level, ih]
  | case5 gap body as ih => exact ih depth

theorem mem_squeezeFrom {c : Char} (h : Blank.isBlank c = false) (gap : Bool) (as : List Atom) :
    char c ∈ squeezeFrom gap as ↔ char c ∈ as := by
  have other {d : Char} (hd : Blank.isBlank d = true) : char c ≠ char d := by
    intro e
    rw [Atom.char.inj e, hd] at h
    cases h
  fun_induction squeezeFrom gap as with
  | case1 => exact Iff.rfl
  | case2 d as blank ih => simp only [ih, List.mem_cons, other blank, false_or]
  | case3 gap d as blank _ ih =>
    simp only [ih, List.mem_cons, other blank, other (d := ' ') rfl, false_or]
  | case4 gap d as _ ih => simp only [ih, List.mem_cons]
  | case5 gap body as ih => simp only [ih, List.mem_cons, reduceCtorEq, false_or]

theorem uncut_squeezeFrom (depth : Int) (gap : Bool) (as : List Atom) :
    Uncut depth (squeezeFrom gap as) ↔ Uncut depth as := by
  have blank {a : Atom} (h : a.isBlank = true) (depth : Int) (as : List Atom) :
      Uncut depth (a :: as) ↔ Uncut depth as := by
    obtain ⟨nesting, comma, -⟩ := of_isBlank h
    rw [Uncut, comma, nesting, Int.add_zero]
    exact and_iff_right fun h => Bool.false_ne_true h.1
  fun_induction squeezeFrom gap as generalizing depth with
  | case1 => exact Iff.rfl
  | case2 c as hc ih => simp only [ih, blank (a := char c) hc]
  | case3 gap c as hc _ ih => simp only [ih, blank (a := char c) hc, blank (a := char ' ') rfl]
  | case4 gap c as _ ih => simp only [Uncut, ih]
  | case5 gap body as ih => simp only [Uncut, ih]; rfl

theorem balanced_squeezeFrom (gap : Bool) : Balanced (squeezeFrom gap as) ↔ Balanced as := by
  constructor
  · rintro ⟨loose, level⟩
    exact ⟨fun h => loose ((mem_squeezeFrom rfl gap as).2 h),
      fun b => (level_squeezeFrom b 0 gap as).symm.trans (level b)⟩
  · rintro ⟨loose, level⟩
    exact ⟨fun h => loose ((mem_squeezeFrom rfl gap as).1 h),
      fun b => (level_squeezeFrom b 0 gap as).trans (level b)⟩

/-- White space at the ends is white space of the atoms. -/
theorem scan_trim_of_loose {cs : List Char} (loose : char '[' ∉ scan cs) :
    scan (Blank.trim cs) = trim (scan cs) := by
  have neat : ∀ a ∈ trim (scan cs), a.Neat :=
    fun a ha => neat_of_mem_scan loose a (trim_subset _ ha)
  rw [← scan_render neat, render_trim, render_scan]

theorem scan_trim {cs : List Char} (h : char '[' ∉ scan (Blank.trim cs)) :
    char '[' ∉ scan cs ∧ scan (Blank.trim cs) = trim (scan cs) := by
  have loose : char '[' ∉ scan cs := by
    obtain ⟨before, after, text, first, last⟩ := Blank.exists_trim cs
    have open1 : '[' ∉ before := fun hm => by cases first _ hm
    have open2 : '[' ∉ after := fun hm => by cases last _ hm
    rw [text, scan_append_of_not_mem open1, scan_append h, ← List.append_nil after,
      scan_append_of_not_mem open2, scan]
    simp [open1, open2, h]
  exact ⟨loose, scan_trim_of_loose loose⟩

theorem balanced_of_trim (neat : ∀ a ∈ as, a.Neat)
    (h : Balanced (scan (Blank.trim (render as)))) : Balanced as := by
  obtain ⟨loose, text⟩ := scan_trim h.loose
  rw [scan_render neat] at loose text
  refine ⟨loose, fun b => ?_⟩
  rw [← level_trim, ← text]
  exact h.level b

/-- **How a text is spaced does not matter for its brackets.** -/
theorem balanced_normalize {cs : List Char} (h : Balanced (scan (Blank.normalize cs))) :
    Balanced (scan cs) := by
  have loose := (scan_trim h.loose).1
  refine (balanced_squeezeFrom false).1 ?_
  rw [← scan_squeezeFrom]
  refine balanced_of_trim (neat_of_mem_scan loose) ?_
  rw [render_scan]
  exact h

/-- The brackets that are open are those of either kind. -/
theorem depthAfter_of_level {p p' q q' : Nat} (parens : Bracket.paren.level p as = some p')
    (braces : Bracket.brace.level q as = some q') :
    depthAfter ((p : Int) + q) as = (p' : Int) + q' := by
  induction as generalizing p q with
  | nil => rw [← Option.some.inj parens, ← Option.some.inj braces]; rfl
  | cons a as ih =>
    rw [depthAfter, List.foldl_cons]
    have step (m n : Nat) (count : (p : Int) + q + a.nesting = (m : Int) + n)
        (parens : Bracket.paren.level m as = some p')
        (braces : Bracket.brace.level n as = some q') :
        as.foldl (fun d a => d + a.nesting) ((p : Int) + q + a.nesting) = (p' : Int) + q' := by
      rw [count]
      exact ih parens braces
    cases a with
    | flavor body => exact step p q (Int.add_zero _) parens braces
    | char c =>
      by_cases open1 : c = '('
      · subst open1
        have one : (char '(').nesting = 1 := by decide
        exact step (p + 1) q (by omega) parens braces
      by_cases open2 : c = '\x7b'
      · subst open2
        have one : (char '\x7b').nesting = 1 := by decide
        exact step p (q + 1) (by omega) parens braces
      by_cases close1 : c = ')'
      · subst close1
        have one : (char ')').nesting = -1 := by decide
        cases p with
        | zero => cases parens
        | succ p => exact step p q (by omega) parens braces
      by_cases close2 : c = '\x7d'
      · subst close2
        have one : (char '\x7d').nesting = -1 := by decide
        cases q with
        | zero => cases braces
        | succ q => exact step p q (by omega) parens braces
      have none : (char c).nesting = 0 := by
        simp [nesting, Bracket.ofOpening?, Bracket.isClosing, Bracket.opening, Bracket.closing,
          Ne.symm open1, Ne.symm open2, Ne.symm close1, Ne.symm close2]
      simp only [Bracket.level, Bracket.opening, Bracket.closing, beq_iff_eq, open1, open2, close1,
        close2, if_false] at parens braces
      exact step p q (by omega) parens braces

theorem Balanced.depthAfter (h : Balanced as) : Atom.depthAfter 0 as = 0 :=
  depthAfter_of_level (h.level .paren) (h.level .brace)

/-! ## Parts of a text -/

theorem trim_append_of_left (h : ∀ a ∈ as, a.isBlank = true) (bs : List Atom) :
    trim (as ++ bs) = trim bs := by
  rw [trim, trim, List.dropWhile_append_of_pos h]

theorem trim_append_of_right (h : ∀ b ∈ bs, b.isBlank = true) (as : List Atom) :
    trim (as ++ bs) = trim as := by
  have right (as : List Atom) : (as ++ bs).rdropWhile isBlank = as.rdropWhile isBlank := by
    rw [List.rdropWhile, List.rdropWhile, List.reverse_append,
      List.dropWhile_append_of_pos fun b hb => h b (List.mem_reverse.1 hb)]
  rw [trim, trim, List.dropWhile_append]
  split
  · next empty =>
    rw [List.isEmpty_iff.1 empty, ← right [], List.nil_append, ← List.append_nil bs,
      List.dropWhile_append_of_pos h]
    simp [List.rdropWhile_eq_nil_iff.2 h]
  · exact right _

/-- White space around a text does not show in its trimmed parts. -/
theorem map_trim_splitAt (depth : Int) (current as : List Atom) {after : List Atom}
    (last : ∀ a ∈ after, a.isBlank = true) :
    ∀ {before : List Atom}, (∀ a ∈ before, a.isBlank = true) →
      (splitAt "," depth (current ++ before.reverse) (as ++ after)).map trim
        = (splitAt "," depth current as).map trim := by
  fun_induction splitAt "," depth current as with
  | case1 depth current =>
    intro before first
    have uncut := (@of_forall_isBlank after depth last).1
    have rest := @splitAt_append after depth (current ++ before.reverse) uncut []
    rw [List.append_nil] at rest
    rw [List.nil_append, rest, splitAt]
    simp [trim_append_of_left first, trim_append_of_right last]
  | case2 depth current a as next cut =>
    rename_i ih
    intro before first
    have rest := @ih [] (List.forall_mem_nil _)
    rw [List.cons_append, splitAt, if_pos cut, List.map_cons, List.map_cons, List.reverse_append,
      List.reverse_reverse, trim_append_of_left first, ← rest]
    rfl
  | case3 depth current a as next cut =>
    rename_i ih
    intro before first
    rw [List.cons_append, splitAt, if_neg cut, ← ih first]
    rfl

/-- **A text and its trimmed text have the same trimmed parts.** -/
theorem map_trim_splitAt_trim (as : List Atom) :
    (splitAt "," 0 [] (trim as)).map trim = (splitAt "," 0 [] as).map trim := by
  obtain ⟨before, after, text, first, last⟩ := exists_trim as
  have uncut := @of_forall_isBlank before 0 first
  have whole := map_trim_splitAt 0 [] (trim as) last first
  have start := @splitAt_append before 0 [] uncut.1 (trim as ++ after)
  rw [uncut.2, List.append_nil, ← text] at start
  rw [start, ← whole, List.nil_append]

end Atom

end DiceFormula
