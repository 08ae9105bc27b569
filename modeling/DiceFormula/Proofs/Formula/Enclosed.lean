import DiceFormula.Proofs.Formula.Balance
import DiceFormula.Proofs.Formula.Values

/-!
# Formulas in brackets

A formula that can be read is read again where it stands in brackets: brackets match in it, so the
group ends where it should (`Formula.ofText_enclosed`). Put in parentheses it is a group
(`Formula.reads_group`), which may have the rest of some dice before or behind it
(`Formula.reads_faces`, `Formula.reads_number`). Several formulas with commas between them are the
members of a pool or the arguments of a call (`Formula.reads_pool`, `Formula.reads_call`).
-/

namespace DiceFormula

open Atom (Balanced scan char)

variable {config : Config}

/-! ## Atoms of a single value -/

theorem Piece.inValue_flavor (body : List Char) : (Piece.atom (.flavor body)).InValue := by
  rintro c ⟨⟩

/-- The atom is no bracket, no sign and no white space. -/
structure Atom.Flat (a : Atom) : Prop where
  outside : a.Outside
  inValue : (Piece.atom a).InValue
  solid : a.isBlank = false

instance : (a : Atom) → Decidable a.Flat
  | .char c =>
    decidable_of_iff ((c ≠ '[' ∧ Bracket.ofOpening? c = none ∧ Bracket.isClosing c = false)
        ∧ (Arithmetic.Sign.ofChar? c = none ∧ c ≠ ' ') ∧ Blank.isBlank c = false)
      ⟨fun ⟨outside, inValue, solid⟩ => ⟨outside, fun _ h => by cases h; exact inValue, solid⟩,
        fun h => ⟨h.outside, h.inValue c rfl, h.solid⟩⟩
  | .flavor body => decidable_of_iff (']' ∉ body) ⟨fun h => ⟨h, Piece.inValue_flavor body, rfl⟩,
      fun h => h.outside⟩

theorem Atom.flat_of_isAlphanum {c : Char} (h : c.isAlphanum = true) : (char c).Flat where
  outside := (tidy_of_isAlphanum h).outside
  inValue := (tidy_of_isAlphanum h).inValue
  solid := isBlank_of_isAlphanum h

theorem Atom.flat_squeezeFrom {as : List Atom} (h : ∀ a ∈ as, a.Flat) (gap : Bool) :
    ∀ a ∈ squeezeFrom gap as, a.Flat := by
  induction as generalizing gap with
  | nil => exact List.forall_mem_nil _
  | cons a as ih =>
    obtain ⟨ha, has⟩ := List.forall_mem_cons.1 h
    cases a with
    | char c =>
      have solid : Blank.isBlank c = false := ha.solid
      rw [squeezeFrom, solid, if_neg Bool.false_ne_true]
      exact List.forall_mem_cons.2 ⟨ha, ih has false⟩
    | flavor body =>
      refine List.forall_mem_cons.2 ⟨⟨fun close => ?_, Piece.inValue_flavor _, rfl⟩, ih has false⟩
      have closed : ']' ∉ body := ha.outside
      exact (Blank.mem_of_mem_squeezeFrom close).elim closed (by decide)

/-- A flat text neither begins nor ends with white space. -/
theorem Atom.begun_of_flat {as : List Atom} (h : ∀ a ∈ as, a.Flat) :
    Blank.Begun (render as) ∧ ∀ c ∈ (render as).getLast?, Blank.isBlank c = false := by
  constructor
  · cases as with
    | nil => trivial
    | cons a as =>
      have ha := h a List.mem_cons_self
      cases a with
      | char c => exact ha.solid
      | flavor body => exact rfl
  · cases as using List.reverseRecOn with
    | nil => exact nofun
    | append_singleton as a =>
      have ha := h a (by simp)
      have last : render (as ++ [a]) = render as ++ a.text := by simp [render]
      rw [last]
      intro c hc
      cases a with
      | char d =>
        rw [text, List.getLast?_append] at hc
        rw [← Option.some.inj hc]
        exact ha.solid
      | flavor body =>
        rw [text, ← List.append_assoc, List.getLast?_append] at hc
        rw [← Option.some.inj hc]
        rfl

/-! ## Reading a single value -/

theorem FormulaToken.ofPieces_of_inValue {ps : List Piece} (full : ps ≠ [])
    (h : ∀ p ∈ ps, p.InValue) : ofPieces ps = [value ps] := by
  have split := splitFrom_append h [] []
  rw [List.append_nil, List.append_nil, splitFrom_nil (by simpa using full),
    List.reverse_reverse] at split
  rw [ofPieces, split, mergeFrom_value (by simp), mergeFrom]
  rfl

namespace Formula

/-- A formula without spaces and signs is read as one value. -/
theorem outline_of_inValue {formula : String} {ps : List Piece} {us : List Term}
    (text : Piece.ofText (normalize formula) = .ok ps) (full : normalize formula ≠ "")
    (dollar : '$' ∉ (normalize formula).toList) (some : ps ≠ []) (inValue : ∀ p ∈ ps, p.InValue)
    (terms : tokenTerms accept config (.value ps) = .ok us)
    (valid : validateTerms config us = .ok us) : outline config formula = .ok us := by
  refine readBy_eq_ok.2 ⟨full, dollar, ps, us, text, ?_, valid⟩
  rw [FormulaToken.ofPieces_of_inValue some inValue, allTerms_cons, terms]
  simp [allTerms]

/-- White space in brackets is made single, and lost around them. -/
theorem toList_normalize_enclosed (b : Bracket) {before : List Char} (inner : List Char)
    {after : List Char} (solid : ∀ c ∈ before, Blank.isBlank c = false)
    (flat : ∀ a ∈ scan after, a.Flat) :
    (normalize (String.ofList (before ++ b.opening :: (inner ++ b.closing :: after)))).toList
      = before ++ b.opening :: (Blank.squeezeFrom false inner ++ b.closing
        :: Blank.squeezeFrom false after) := by
  have opening : Blank.isBlank b.opening = false := by cases b <;> rfl
  have closing : Blank.isBlank b.closing = false := by cases b <;> rfl
  have squeezed : Blank.squeezeFrom false (before ++ b.opening :: (inner ++ b.closing :: after))
      = before ++ b.opening :: (Blank.squeezeFrom false inner ++ b.closing
        :: Blank.squeezeFrom false after) := by
    rw [Blank.squeezeFrom_append_cons opening, Blank.squeezeFrom_append_cons closing,
      Blank.squeezeFrom_of_forall solid]
  obtain ⟨-, ended⟩ := Atom.begun_of_flat (Atom.flat_squeezeFrom flat false)
  rw [← Atom.scan_squeezeFrom, Atom.render_scan] at ended
  rw [normalize, String.toList_ofList, String.toList_ofList, Blank.normalize, squeezed,
    Blank.trim, Blank.trimLeft_of_begun, Blank.trimRight_of_ended]
  · intro c hc
    rw [List.getLast?_append, List.getLast?_cons, List.getLast?_append, List.getLast?_cons] at hc
    cases hl : (Blank.squeezeFrom false after).getLast? with
    | none =>
      simp [hl] at hc
      rw [← hc]
      exact closing
    | some d =>
      simp [hl] at hc
      rw [← hc]
      exact ended d hl
  · cases before with
    | nil => exact opening
    | cons c cs => exact solid c List.mem_cons_self

/-- **A balanced text in brackets is cut out as a group.** -/
theorem ofText_enclosed {b : Bracket} {fn : Option String} {before inner after : List Char}
    {rest : List Piece} (alphanum : ∀ c ∈ before, c.isAlphanum = true)
    (balanced : Balanced (scan inner)) (flat : ∀ a ∈ scan after, a.Flat)
    (opened : Piece.openGroup b (before.reverse.map fun c => .atom (char c))
      = (⟨b, fn, 0, []⟩, rest)) :
    Piece.ofText (normalize (String.ofList (before ++ b.opening :: (inner ++ b.closing :: after))))
      = .ok (rest.reverse ++ .group ⟨b, fn, normalize (String.ofList inner)⟩
        :: (scan (Blank.squeezeFrom false after)).map Piece.atom) := by
  have squeezed : Balanced (scan (Blank.squeezeFrom false inner)) := by
    rw [Atom.scan_squeezeFrom]
    exact (Atom.balanced_squeezeFrom false).2 balanced
  have plain : '[' ∉ before := fun hm => absurd (alphanum _ hm) (by decide)
  have outside : ∀ a ∈ before.map char, a.Outside := by
    intro a ha
    obtain ⟨c, hc, rfl⟩ := List.mem_map.1 ha
    exact Atom.outside_of_isAlphanum (alphanum c hc)
  have behind : ∀ a ∈ scan (Blank.squeezeFrom false after), a.Outside := by
    intro a ha
    rw [Atom.scan_squeezeFrom] at ha
    exact (Atom.flat_squeezeFrom flat false a ha).outside
  have pieces : (before.map char).reverse.map Piece.atom
      = before.reverse.map fun c => .atom (char c) := by
    rw [← List.map_reverse, List.map_map]
    rfl
  rw [Piece.ofText, toList_normalize_enclosed b inner
      (fun c hc => Atom.isBlank_of_isAlphanum (alphanum c hc)) flat,
    Atom.scan_append_of_not_mem plain, Piece.scan_enclosed b squeezed.loose,
    Piece.extract_append outside, List.append_nil, pieces,
    Piece.extract_enclosed squeezed.loose (squeezed.level b) opened, Atom.render_scan,
    ← List.append_nil (scan (Blank.squeezeFrom false after)), Piece.extract_append behind,
    Piece.extract]
  simp [normalize, Blank.normalize]

/-- A formula that is one group, with its brackets, between parts of a value. -/
theorem outline_enclosed {b : Bracket} {fn : Option String} {before inner after : List Char}
    {rest : List Piece} {us : List Term} (alphanum : ∀ c ∈ before, c.isAlphanum = true)
    (balanced : Balanced (scan inner)) (flat : ∀ a ∈ scan after, a.Flat)
    (opened : Piece.openGroup b (before.reverse.map fun c => .atom (char c))
      = (⟨b, fn, 0, []⟩, rest))
    (dollar : '$' ∉ (normalize (String.ofList inner)).toList ∧ '$' ∉ after)
    (terms : segmentTerms accept config (segments (rest.reverse
      ++ .group ⟨b, fn, normalize (String.ofList inner)⟩
      :: (scan (Blank.squeezeFrom false after)).map Piece.atom)) = .ok us)
    (valid : validateTerms config us = .ok us) :
    outline config (String.ofList (before ++ b.opening :: (inner ++ b.closing :: after)))
      = .ok us := by
  have text := ofText_enclosed alphanum balanced flat opened
  have written := toList_normalize_enclosed b inner
    (fun c hc => Atom.isBlank_of_isAlphanum (alphanum c hc)) flat
  have inValue : ∀ p ∈ rest.reverse ++ .group ⟨b, fn, normalize (String.ofList inner)⟩
      :: (scan (Blank.squeezeFrom false after)).map Piece.atom, p.InValue := by
    intro p hp
    rcases List.mem_append.1 hp with hp | hp
    · have subset := Piece.openGroup_subset b (before.reverse.map fun c => .atom (char c))
      rw [opened] at subset
      obtain ⟨c, hc, rfl⟩ := List.mem_map.1 (subset (List.mem_reverse.1 hp))
      exact (Atom.tidy_of_isAlphanum (alphanum c (List.mem_reverse.1 hc))).inValue
    · rcases List.mem_cons.1 hp with rfl | hp
      · exact nofun
      · obtain ⟨a, ha, rfl⟩ := List.mem_map.1 hp
        rw [Atom.scan_squeezeFrom] at ha
        exact (Atom.flat_squeezeFrom flat false a ha).inValue
  have some : (Piece.groups (rest.reverse ++ .group ⟨b, fn, normalize (String.ofList inner)⟩
      :: (scan (Blank.squeezeFrom false after)).map Piece.atom)).isEmpty = false := by
    rw [List.isEmpty_eq_false_iff_exists_mem]
    exact ⟨_, List.mem_filterMap.2 ⟨_, List.mem_append_right _ List.mem_cons_self, rfl⟩⟩
  refine outline_of_inValue text ?_ ?_ (by simp) inValue ?_ valid
  · intro empty
    rw [empty] at written
    simp at written
  · obtain ⟨inside, behind⟩ := dollar
    have squeezed : '$' ∉ Blank.squeezeFrom false inner := by
      intro hm
      rw [normalize, String.toList_ofList, String.toList_ofList] at inside
      exact inside (Blank.mem_trim rfl hm)
    have squeezed' : '$' ∉ Blank.squeezeFrom false after :=
      fun hm => (Blank.mem_of_mem_squeezeFrom hm).elim behind (by decide)
    have first : '$' ∉ before := fun hm => absurd (alphanum _ hm) (by decide)
    have opening : '$' ≠ b.opening := by cases b <;> decide
    have closing : '$' ≠ b.closing := by cases b <;> decide
    rw [written]
    simp [first, opening, closing, squeezed, squeezed']
  · rw [tokenTerms, some, if_neg Bool.false_ne_true, terms]

/-! ## Groups -/

/-- The term of a formula in parentheses. -/
def parenthesized (config : Config) (formula : String) : Term :=
  .make (.group (.str (normalize formula)) none) [] config

theorem dollar_of_reads {f : String} {ts : List Term} (h : Reads config f ts) :
    '$' ∉ (normalize f).toList :=
  (readBy_eq_ok.1 (reads_iff.1 h).1).2.1

/-- A value with a formula in parentheses is read if the formula is, and if the other parts of the
value have no formulas in them. -/
theorem reads_enclosed {f : String} {ts : List Term} (h : Reads config f ts)
    {before after : List Char} {rest : List Piece} {us : List Term}
    (alphanum : ∀ c ∈ before, c.isAlphanum = true) (flat : ∀ a ∈ scan after, a.Flat)
    (opened : Piece.openGroup .paren (before.reverse.map fun c => .atom (char c))
      = (⟨.paren, none, 0, []⟩, rest)) (dollar : '$' ∉ after)
    (terms : segmentTerms accept config (segments (rest.reverse
      ++ .group ⟨.paren, none, normalize f⟩
      :: (scan (Blank.squeezeFrom false after)).map Piece.atom)) = .ok us)
    (valid : validateTerms config us = .ok us)
    (inside : ∀ t ∈ us, t = parenthesized config f ∨ t.formulas = []) :
    Reads config (String.ofList before ++ "(" ++ f ++ ")" ++ String.ofList after) us := by
  refine reads_iff.2 ⟨?_, ?_⟩
  · have read := outline_enclosed alphanum (balanced_of_reads h) flat opened
      ⟨by rw [String.ofList_toList]; exact dollar_of_reads h, dollar⟩
      (by rw [String.ofList_toList]; exact terms) valid
    have text : String.ofList before ++ "(" ++ f ++ ")" ++ String.ofList after
        = String.ofList (before ++ Bracket.opening .paren
          :: (f.toList ++ Bracket.closing .paren :: after)) := by
      rw [← String.toList_inj]
      simp [Bracket.opening, Bracket.closing]
    exact (congrArg (outline config) text).trans read
  · intro t ht a ha
    rcases inside t ht with rfl | none
    · obtain rfl := List.mem_singleton.1 ha
      exact ⟨ts, reads_normalize.2 h⟩
    · rw [none] at ha
      cases ha

/-- **A formula in parentheses is read as a group.** -/
theorem reads_group {f : String} {ts : List Term} (h : Reads config f ts) :
    Reads config ("(" ++ f ++ ")") [parenthesized config f] := by
  have nothing : scan [] = [] := by rw [scan]
  have read := @reads_enclosed config f ts h [] [] [] [parenthesized config f]
    (List.forall_mem_nil _) (by rw [nothing]; exact List.forall_mem_nil _) rfl List.not_mem_nil
    (by rw [Blank.squeezeFrom, nothing]; rfl) rfl
    (List.forall_mem_singleton.2 (.inl rfl))
  simpa using read

/-! ## Dice around a group -/

theorem flavorSuffix?_of_ne {c : Char} (h : c ≠ '[') (cs : List Char) :
    flavorSuffix? (c :: cs) = none := by
  rw [flavorSuffix?, Leaf.takeFlavor_of_ne h]

/-- The rest of some dice is kept as text beside a group. -/
theorem classify_beside {cs tail : List Char} {d : Char}
    (h : cs.dropWhile Char.isDigit = d :: tail) (letter : d = 'd' ∨ d = 'D') :
    Leaf.classify (String.ofList cs) config true = .ok (Leaf.textTerm cs config) := by
  obtain ⟨c, cs, rfl⟩ : ∃ c ds, cs = c :: ds := by
    cases cs with
    | nil => cases h
    | cons c ds => exact ⟨c, ds, rfl⟩
  have noSign : Arithmetic.Sign.ofChar? c = none := by
    cases digit : c.isDigit with
    | true => exact Arithmetic.Sign.ofChar?_of_isDigit digit
    | false =>
      rw [List.dropWhile_cons_of_neg (by simp [digit])] at h
      obtain ⟨rfl, -⟩ := List.cons.inj h
      rcases letter with rfl | rfl <;> decide
  rw [Leaf.classify_eq_leaf (String.toList_ofList) noSign, Leaf.classify.leaf,
    String.toList_ofList, Leaf.readNumeral?_eq_none h letter]
  dsimp only
  cases Leaf.readDice? (c :: cs) <;> rfl

theorem segments_atoms {as : List Atom} (full : as ≠ []) :
    segments (as.map Piece.atom) = [.text as] := by
  have none : ∀ p ∈ ([] : List Piece).head?, ∃ g, p = .group g := nofun
  have atoms := segments_append full none
  rwa [List.append_nil] at atoms

/-- **A group before the letter of some dice is their number.** -/
theorem reads_number {f : String} {ts : List Term} (h : Reads config f ts) {s : String}
    {d : Char} {tail : List Char} (text : s.toList = d :: tail) (letter : d = 'd' ∨ d = 'D')
    (flat : ∀ a ∈ scan s.toList, a.Flat) (dollar : '$' ∉ s.toList) :
    Reads config ("(" ++ f ++ ")" ++ s)
      [parenthesized config f, Leaf.textTerm (Blank.squeezeFrom false s.toList) config] := by
  have solid : Blank.isBlank d = false := by rcases letter with rfl | rfl <;> rfl
  have noFlavor : d ≠ '[' := by rcases letter with rfl | rfl <;> decide
  have noDigit : d.isDigit = false := by rcases letter with rfl | rfl <;> decide
  have squeezed : Blank.squeezeFrom false s.toList = d :: Blank.squeezeFrom false tail := by
    rw [text, Blank.squeezeFrom_cons solid]
  have full : scan (Blank.squeezeFrom false s.toList) ≠ [] := by
    rw [squeezed, scan, if_neg noFlavor]
    exact List.cons_ne_nil _ _
  have beside : Leaf.classify (String.ofList (Blank.squeezeFrom false s.toList)) config true
      = .ok (Leaf.textTerm (Blank.squeezeFrom false s.toList) config) := by
    have front : (Blank.squeezeFrom false s.toList).dropWhile Char.isDigit
        = d :: Blank.squeezeFrom false tail := by
      rw [squeezed, List.dropWhile_cons_of_neg (by simp [noDigit])]
    exact classify_beside front letter
  have noSuffix : suffix? .paren (Atom.render (scan (Blank.squeezeFrom false s.toList)))
      = none := by
    rw [Atom.render_scan, squeezed]
    exact flavorSuffix?_of_ne noFlavor _
  have read := @reads_enclosed config f ts h [] s.toList []
    [parenthesized config f, Leaf.textTerm (Blank.squeezeFrom false s.toList) config]
    (List.forall_mem_nil _) flat rfl dollar ?_ rfl
    (List.forall_mem_cons.2 ⟨.inl rfl, List.forall_mem_singleton.2 (.inr rfl)⟩)
  · rw [String.ofList_toList] at read
    simpa using read
  · rw [List.reverse_nil, List.nil_append, segments, segments_atoms full, segmentTerms, noSuffix]
    dsimp only
    rw [Atom.render_scan, beside]
    rfl

theorem isAlphanum_of_mem_digits {ds : List Char} (digits : ∀ c ∈ ds, c.isDigit = true) :
    ∀ c ∈ ds ++ ['d'], c.isAlphanum = true := by
  intro c hc
  rcases List.mem_append.1 hc with hc | hc
  · simp [Char.isAlphanum, digits c hc]
  · rw [List.mem_singleton.1 hc]
    rfl

/-- No function is named by digits and the letter of some dice. -/
theorem takeFunction_digits {ds : List Char} (digits : ∀ c ∈ ds, c.isDigit = true) :
    Piece.takeFunction ((ds ++ ['d']).reverse.map fun c => .atom (char c))
      = (none, (ds ++ ['d']).reverse.map fun c => .atom (char c)) := by
  have alphanum : ∀ c ∈ (ds ++ ['d']).reverse, c.isAlphanum = true :=
    fun c hc => isAlphanum_of_mem_digits digits c (List.mem_reverse.1 hc)
  have taken := Piece.takeName_append alphanum []
  rw [List.append_nil, Piece.takeName, List.append_nil] at taken
  have noBreak : ∀ ps, (ds ++ ['d']).reverse.map (fun c => Piece.atom (char c))
      ≠ .atom (char '\n') :: ps := by
    intro ps e
    simp at e
  rw [Piece.takeFunction]
  · dsimp only
    rw [taken, List.reverse_reverse]
    cases ds with
    | nil => rfl
    | cons d ds =>
      have noLetter := Arithmetic.not_isAlpha_of_isDigit (digits d List.mem_cons_self)
      cases ds <;> simp [noLetter]
  · exact noBreak

/-- **A group behind the letter of some dice is the number of their faces.** -/
theorem reads_faces {f : String} {ts : List Term} (h : Reads config f ts) {ds : List Char}
    (digits : ∀ c ∈ ds, c.isDigit = true) :
    Reads config (String.ofList ds ++ "d(" ++ f ++ ")")
      [Leaf.textTerm (ds ++ ['d']) config, parenthesized config f] := by
  have opened : Piece.openGroup .paren ((ds ++ ['d']).reverse.map fun c => .atom (char c))
      = (⟨.paren, none, 0, []⟩, (ds ++ ['d']).reverse.map fun c => .atom (char c)) := by
    rw [Piece.openGroup, takeFunction_digits digits]
  have pieces : ((ds ++ ['d']).reverse.map fun c => Piece.atom (char c)).reverse
      = ((ds ++ ['d']).map char).map Piece.atom := by
    rw [← List.map_reverse, List.reverse_reverse, List.map_map]
    rfl
  have beside : Leaf.classify (String.ofList (ds ++ ['d'])) config true
      = .ok (Leaf.textTerm (ds ++ ['d']) config) := by
    have front : (ds ++ ['d']).dropWhile Char.isDigit = ['d'] := by
      rw [List.dropWhile_append_of_pos digits]
      rfl
    exact classify_beside front (.inl rfl)
  have nothing : scan [] = [] := by rw [scan]
  have read := @reads_enclosed config f ts h (ds ++ ['d']) [] _
    [Leaf.textTerm (ds ++ ['d']) config, parenthesized config f] (isAlphanum_of_mem_digits digits)
    (by rw [nothing]; exact List.forall_mem_nil _) opened List.not_mem_nil ?_ rfl
    (List.forall_mem_cons.2 ⟨.inr rfl, List.forall_mem_singleton.2 (.inl rfl)⟩)
  · have text : String.ofList ds ++ "d(" ++ f ++ ")"
        = String.ofList (ds ++ ['d']) ++ "(" ++ f ++ ")" ++ String.ofList [] := by
      rw [← String.toList_inj]
      simp
    rwa [text]
  · rw [pieces, segments_append (by simp) (by simp), segmentTerms, Atom.render_map_char, beside,
      Blank.squeezeFrom, nothing]
    rfl

/-- A flat text is read as one leaf. -/
theorem reads_leaf {cs : List Char} {t : Term} (full : cs ≠ []) (flat : ∀ a ∈ scan cs, a.Flat)
    (dollar : '$' ∉ cs) (value : t.isOperator = false)
    (h : Leaf.classify (String.ofList (Blank.squeezeFrom false cs)) config false = .ok t) :
    Reads config (String.ofList cs) [t] := by
  have flat := Atom.flat_squeezeFrom flat false
  obtain ⟨begun, ended⟩ := Atom.begun_of_flat flat
  rw [← Atom.scan_squeezeFrom] at flat begun ended
  rw [Atom.render_scan] at begun ended
  have text : (normalize (String.ofList cs)).toList = Blank.squeezeFrom false cs := by
    rw [normalize, String.toList_ofList, String.toList_ofList, Blank.normalize, Blank.trim,
      Blank.trimLeft_of_begun begun, Blank.trimRight_of_ended ended]
  have some : Blank.squeezeFrom false cs ≠ [] := by
    cases cs with
    | nil => exact absurd rfl full
    | cons c cs =>
      rw [Blank.squeezeFrom]
      split <;> exact List.cons_ne_nil _ _
  have pieces : Piece.ofText (normalize (String.ofList cs))
      = .ok ((scan (Blank.squeezeFrom false cs)).map Piece.atom) := by
    rw [Piece.ofText, text, ← List.append_nil (scan _),
      Piece.extract_append (fun a ha => (flat a ha).outside), Piece.extract]
    simp
  refine reads_iff.2 ⟨outline_of_inValue pieces ?_ ?_ ?_ ?_ ?_ ?_, ?_⟩
  · intro empty
    rw [empty] at text
    exact some text.symm
  · rw [text]
    exact fun hm => (Blank.mem_of_mem_squeezeFrom hm).elim dollar (by decide)
  · intro empty
    refine some ?_
    rw [← Atom.render_scan (Blank.squeezeFrom false cs), List.map_eq_nil_iff.1 empty]
    rfl
  · intro p hp
    obtain ⟨a, ha, rfl⟩ := List.mem_map.1 hp
    exact (flat a ha).inValue
  · have none : Piece.groups ((scan (Blank.squeezeFrom false cs)).map Piece.atom) = [] := by
      simp [Piece.groups]
    rw [tokenTerms, none, Piece.render_map_atom, Atom.render_scan, h]
    rfl
  · have noSign := isOperator_eq_false.1 value
    simp [validateTerms, withLeadingZero, noSign, alternate]
  · intro u hu
    obtain rfl := List.mem_singleton.1 hu
    rw [Leaf.formulas_of_classify h]
    exact List.forall_mem_nil _

/-! ## Several formulas -/

/-- A formula that can be read and has no comma outside of brackets and flavors. -/
structure Single (config : Config) (formula : String) : Prop where
  reads : ∃ ts, Reads config formula ts
  uncut : Atom.Uncut 0 (scan formula.toList)

theorem Single.balanced {f : String} (h : Single config f) : Balanced (scan f.toList) := by
  obtain ⟨ts, hts⟩ := h.reads
  exact balanced_of_reads hts

theorem scan_intercalate {fs : List String} (h : ∀ f ∈ fs, char '[' ∉ scan f.toList) :
    scan (",".intercalate fs).toList = Atom.joined (fs.map fun f => scan f.toList) := by
  rw [String.toList_intercalate]
  induction fs with
  | nil => simp [scan, Atom.joined]
  | cons f fs ih =>
    obtain ⟨hf, hfs⟩ := List.forall_mem_cons.1 h
    by_cases last : fs = []
    · subst last
      simp [Atom.joined]
    · have full : fs.map String.toList ≠ [] := fun e => last (List.map_eq_nil_iff.1 e)
      have full' : (fs.map fun f => scan f.toList) ≠ [] := fun e => last (List.map_eq_nil_iff.1 e)
      have comma (cs : List Char) : scan (',' :: cs) = char ',' :: scan cs := by
        rw [scan, if_neg (by decide)]
      rw [List.map_cons, List.map_cons, List.intercalate_cons_of_ne_nil full, List.append_assoc,
        Atom.scan_append hf, Atom.joined_cons full', ← ih hfs, ← comma]
      rfl

theorem balanced_intercalate {fs : List String} (h : ∀ f ∈ fs, Single config f) :
    Balanced (scan (",".intercalate fs).toList) := by
  rw [scan_intercalate fun f hf => (h f hf).balanced.loose]
  refine ⟨fun hm => ?_, fun b => level_joined_of_forall fun p hp => ?_⟩
  · rcases Atom.mem_joined hm with e | ⟨p, hp, hm⟩
    · exact absurd (Atom.char.inj e) (by decide)
    · obtain ⟨f, hf, rfl⟩ := List.mem_map.1 hp
      exact (h f hf).balanced.loose hm
  · obtain ⟨f, hf, rfl⟩ := List.mem_map.1 hp
    exact (h f hf).balanced.level b

theorem parts_of_single {fs : List String} (some : fs ≠ []) (h : ∀ f ∈ fs, Single config f) :
    Atom.Parts (fs.map fun f => Atom.squeezeFrom false (scan f.toList)) := by
  induction fs with
  | nil => exact absurd rfl some
  | cons f fs ih =>
    obtain ⟨hf, hfs⟩ := List.forall_mem_cons.1 h
    have uncut := (Atom.uncut_squeezeFrom 0 false _).2 hf.uncut
    by_cases last : fs = []
    · subst last
      exact .last uncut
    · exact .next uncut ((Atom.balanced_squeezeFrom false).2 hf.balanced).depthAfter (ih last hfs)

/-- **Formulas with commas between them are read one by one.** -/
theorem arguments_of_single {fs : List String} (some : fs ≠ []) (h : ∀ f ∈ fs, Single config f) :
    arguments (normalize (",".intercalate fs)) = .ok (fs.map normalize) := by
  have balanced := (Atom.balanced_squeezeFrom false).2 (balanced_intercalate h)
  have joined : scan (Blank.squeezeFrom false (",".intercalate fs).toList)
      = Atom.joined (fs.map fun f => Atom.squeezeFrom false (scan f.toList)) := by
    rw [Atom.scan_squeezeFrom, scan_intercalate fun f hf => (h f hf).balanced.loose,
      Atom.squeezeFrom_joined, List.map_map]
    rfl
  rw [← Atom.scan_squeezeFrom] at balanced
  have text : scan (normalize (",".intercalate fs)).toList
      = Atom.trim (scan (Blank.squeezeFrom false (",".intercalate fs).toList)) := by
    rw [normalize, String.toList_ofList, Blank.normalize, Atom.scan_trim_of_loose balanced.loose]
  have closed : char '[' ∉ scan (normalize (",".intercalate fs)).toList :=
    fun ha => balanced.loose (Atom.trim_subset _ (text ▸ ha))
  have each (f : String) : String.ofList (Atom.render (Atom.trim (Atom.squeezeFrom false
      (scan f.toList)))) = normalize f := by
    rw [Atom.render_trim, ← Atom.scan_squeezeFrom, Atom.render_scan, normalize, Blank.normalize]
  have split : splitTopLevel (normalize (",".intercalate fs)) "," = .ok (fs.map normalize) := by
    have parts := Atom.map_trim_splitAt_trim
      (scan (Blank.squeezeFrom false (",".intercalate fs).toList))
    rw [joined, Atom.splitAt_joined (parts_of_single some h), ← joined, ← text] at parts
    have trimmed : ∀ ps : List (List Atom), ps.map (fun part =>
        String.ofList (Blank.trim (Atom.render part)))
        = (ps.map Atom.trim).map fun part => String.ofList (Atom.render part) := by
      intro ps
      simp [Atom.render_trim]
    rw [splitTopLevel_eq_ok, trimmed, parts, List.map_map, List.map_map]
    exact ⟨closed, List.map_congr_left fun f _ => each f⟩
  have full : (fs.map normalize).any (·.isEmpty) = false := by
    rw [List.any_eq_false]
    intro a ha empty
    obtain ⟨f, hf, rfl⟩ := List.mem_map.1 ha
    obtain ⟨ts, hts⟩ := (h f hf).reads
    exact (readBy_eq_ok.1 (reads_iff.1 hts).1).1 (String.isEmpty_iff.1 empty)
  exact arguments_eq_ok.2 ⟨split, full⟩

/-- The formulas inside a pool or a call are read as they stand. -/
theorem reads_of_single {formula : String} {t : Term} {fs : List String}
    (h : ∀ f ∈ fs, Single config f) (outline : outline config formula = .ok [t])
    (formulas : t.formulas = fs.map normalize) : Reads config formula [t] := by
  refine reads_iff.2 ⟨outline, fun u hu a ha => ?_⟩
  obtain rfl := List.mem_singleton.1 hu
  rw [formulas] at ha
  obtain ⟨f, hf, rfl⟩ := List.mem_map.1 ha
  obtain ⟨ts, hts⟩ := (h f hf).reads
  exact ⟨ts, reads_normalize.2 hts⟩

theorem isPoolModifierChar_of_isAlphanum {c : Char} (h : c.isAlphanum = true) :
    isPoolModifierChar c = true := by
  have ne {d : Char} (hd : d.isAlphanum = false) : c ≠ d := by
    rintro rfl
    rw [h] at hd
    cases hd
  have open1 : c ≠ '(' := ne rfl
  have open2 : c ≠ '\x7b' := ne rfl
  have open3 : c ≠ '[' := ne rfl
  have close1 : c ≠ ')' := ne rfl
  have close2 : c ≠ '\x7d' := ne rfl
  have close3 : c ≠ ']' := ne rfl
  have plus : c ≠ '+' := ne rfl
  have minus : c ≠ '-' := ne rfl
  have times : c ≠ '*' := ne rfl
  have divide : c ≠ '/' := ne rfl
  have modulo : c ≠ '%' := ne rfl
  have space : c ≠ ' ' := ne rfl
  have comma : c ≠ ',' := ne rfl
  simp [isPoolModifierChar, Leaf.isModifierChar, open1, open2, open3, close1, close2, close3, plus,
    minus, times, divide, modulo, space, comma]

/-- The term of a pool of some formulas. -/
def pooled (config : Config) (fs : List String) (modifiers : String) : Term :=
  .make (.pool (fs.map normalize) [] { modifiers := Modifier.splitValues modifiers }) [] config

/-- The term of a function of some formulas. -/
def called (config : Config) (name : String) (fs : List String) : Term :=
  .make (.call (.str name) (fs.map normalize) [] .null) [] config

theorem mem_of_mem_intercalate {fs : List String} {c : Char}
    (h : c ∈ (",".intercalate fs).toList) : c = ',' ∨ ∃ f ∈ fs, c ∈ f.toList := by
  rw [String.toList_intercalate] at h
  induction fs with
  | nil => cases h
  | cons f fs ih =>
    by_cases last : fs = []
    · subst last
      exact .inr ⟨f, List.mem_cons_self, by simpa using h⟩
    · have full : fs.map String.toList ≠ [] := fun e => last (List.map_eq_nil_iff.1 e)
      rw [List.map_cons, List.intercalate_cons_of_ne_nil full, List.mem_append,
        List.mem_append] at h
      rcases h with (h | h) | h
      · exact .inr ⟨f, List.mem_cons_self, h⟩
      · exact .inl (List.mem_singleton.1 h)
      · refine (ih h).imp_right ?_
        rintro ⟨f', hf, h⟩
        exact ⟨f', List.mem_cons_of_mem _ hf, h⟩

variable {fs : List String} (some : fs ≠ []) (h : ∀ f ∈ fs, Single config f)

include h in
theorem dollar_of_single : '$' ∉ (normalize (",".intercalate fs)).toList := by
  intro hm
  rcases (mem_of_mem_normalize hm).resolve_right (by decide) |> mem_of_mem_intercalate with
    e | ⟨f, hf, hm⟩
  · exact absurd e (by decide)
  · obtain ⟨ts, hts⟩ := (h f hf).reads
    refine dollar_of_reads hts ?_
    rw [normalize, String.toList_ofList, Blank.normalize]
    exact Blank.mem_trim rfl (Blank.mem_squeezeFrom rfl hm)

include some h

/-- **Formulas in braces are read as a pool.** -/
theorem reads_pool {modifiers : String} (full : modifiers ≠ "")
    (alphanum : ∀ c ∈ modifiers.toList, c.isAlphanum = true) :
    Reads config ("\x7b" ++ ",".intercalate fs ++ "\x7d" ++ modifiers)
      [pooled config fs modifiers] := by
  refine reads_of_single h ?_ rfl
  have loose : '[' ∉ modifiers.toList := fun hm => absurd (alphanum _ hm) (by decide)
  have atoms := Atom.scan_of_not_mem loose
  have flat : ∀ a ∈ scan modifiers.toList, a.Flat := by
    intro a ha
    rw [atoms] at ha
    obtain ⟨c, hc, rfl⟩ := List.mem_map.1 ha
    exact Atom.flat_of_isAlphanum (alphanum c hc)
  have squeezed : Blank.squeezeFrom false modifiers.toList = modifiers.toList :=
    Blank.squeezeFrom_of_forall (fun c hc => Atom.isBlank_of_isAlphanum (alphanum c hc)) false
  have suffix : suffix? .brace modifiers.toList = .some { modifiers := modifiers.toList } := by
    have all : modifiers.toList.takeWhile isPoolModifierChar = modifiers.toList :=
      List.takeWhile_eq_self_iff.2 fun c hc => isPoolModifierChar_of_isAlphanum (alphanum c hc)
    simp [suffix?, poolSuffix?, all, Leaf.takeFlavor, Leaf.isEnd]
  have dollar : '$' ∉ (normalize (String.ofList (",".intercalate fs).toList)).toList := by
    rw [String.ofList_toList]
    exact dollar_of_single h
  have read := @outline_enclosed config .brace none [] (",".intercalate fs).toList
    modifiers.toList [] [pooled config fs modifiers] (List.forall_mem_nil _)
    (balanced_intercalate h) flat rfl ⟨dollar, ?_⟩ ?_ rfl
  · have whole : "\x7b" ++ ",".intercalate fs ++ "\x7d" ++ modifiers
        = String.ofList ([] ++ Bracket.opening .brace
          :: ((",".intercalate fs).toList ++ Bracket.closing .brace :: modifiers.toList)) := by
      rw [← String.toList_inj]
      simp [Bracket.opening, Bracket.closing]
    exact (congrArg (Formula.outline config) whole).trans read
  · exact fun hm => absurd (alphanum _ hm) (by decide)
  · have nonempty : scan modifiers.toList ≠ [] := by
      rw [atoms]
      exact fun e => full (String.toList_eq_nil_iff.1 (List.map_eq_nil_iff.1 e))
    rw [String.ofList_toList, squeezed, List.reverse_nil, List.nil_append, segments,
      segments_atoms nonempty, segmentTerms, Atom.render_scan, suffix]
    simp [groupTerm, arguments_of_single some h, accept_forM, segmentTerms, pooled,
      Options.ofFlavor]

/-- **Formulas in parentheses behind the name of a function are read as its arguments.** -/
theorem reads_call {name : String} (isName : Group.IsName name.toList)
    (known : (config.functions.lookup name).isSome = true) :
    Reads config (name ++ "(" ++ ",".intercalate fs ++ ")") [called config name fs] := by
  refine reads_of_single h ?_ rfl
  have opened : Piece.openGroup .paren (name.toList.reverse.map fun c => .atom (char c))
      = (⟨.paren, .some name, 0, []⟩, []) := by
    have free : Piece.Free [] := nofun
    have taken := Piece.takeFunction_name isName free
    rw [List.append_nil] at taken
    rw [Piece.openGroup, taken]
  have alphanum : ∀ c ∈ name.toList, c.isAlphanum = true := by
    obtain ⟨c, d, cs, -, -, alphanum⟩ := isName
    exact alphanum
  have read := @outline_enclosed config .paren (.some name) name.toList
    (",".intercalate fs).toList [] [] [called config name fs] alphanum (balanced_intercalate h)
    (by rw [scan]; exact List.forall_mem_nil _) opened
    ⟨by rw [String.ofList_toList]; exact dollar_of_single h, List.not_mem_nil⟩ ?_ rfl
  · have whole : name ++ "(" ++ ",".intercalate fs ++ ")" = String.ofList (name.toList
        ++ Bracket.opening .paren
          :: ((",".intercalate fs).toList ++ [Bracket.closing .paren])) := by
      rw [← String.toList_inj]
      simp [Bracket.opening, Bracket.closing]
    exact (congrArg (Formula.outline config) whole).trans read
  · obtain ⟨f, known⟩ := Option.isSome_iff_exists.1 known
    rw [String.ofList_toList, Blank.squeezeFrom, scan]
    simp [segments, segmentTerms, groupTerm, arguments_of_single some h, accept_forM, known,
      called, Options.ofFlavor]

end Formula

end DiceFormula
