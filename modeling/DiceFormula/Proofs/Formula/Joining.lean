import DiceFormula.Proofs.Formula.Enclosed
import DiceFormula.Proofs.Formula.Printing
import DiceFormula.Proofs.Text.Padded

/-!
# Formulas joined by signs

A sign with white space on both sides parts a formula for good: what stands before it and what
stands behind it are cut into the same pieces, tokens and terms as if they stood alone. So the terms
of the whole are those of the two parts with the sign between them (`Formula.Listed.join`), and a
sign in front of a formula is one more term (`Formula.Listed.signed`). This holds before validation,
which alone looks at what stands side by side.
-/

namespace DiceFormula

open Arithmetic (Sign)
open Atom (scan char)

variable {config : Config}

/-! ## Pieces -/

namespace Piece

/-- Nothing before the piece belongs to the name of a function behind it. -/
structure Parts (p : Piece) : Prop where
  name : nameChar? p = none
  apart : joinsName p = false
  line : p ≠ .atom (char '\n')

theorem parts_space : Parts (.atom (char ' ')) := ⟨by decide, by decide, by decide⟩

theorem parts_sign (s : Sign) : Parts (.atom (char s.char)) := by
  cases s <;> exact ⟨by decide, by decide, by decide⟩

variable {p : Piece} {ps qs done rest : List Piece} {as bs : List Atom}

theorem takeName_behind (h : p.Parts) :
    takeName (done ++ p :: rest) = ((takeName done).1, (takeName done).2 ++ p :: rest) := by
  induction done with
  | nil => simp [takeName, h.name]
  | cons q done ih =>
    rw [List.cons_append, takeName, takeName]
    cases nameChar? q with
    | none => rfl
    | some c => simp only [ih]

/-- The name of a function is looked for behind the piece only. -/
theorem takeFunction_behind (h : p.Parts) :
    takeFunction (done ++ p :: rest)
      = ((takeFunction done).1, (takeFunction done).2 ++ p :: rest) := by
  have head (ps : List Piece) : (ps ++ p :: rest).head?.any joinsName = ps.head?.any joinsName := by
    cases ps with
    | nil => exact h.apart
    | cons => rfl
  have taken (done : List Piece) := @takeName_behind p done rest h
  rcases done with _ | ⟨q, done⟩
  · simp [takeFunction, h.line, takeName, h.name]
  · have behind := taken (q :: done)
    rw [List.cons_append] at behind
    by_cases line : q = .atom (char '\n')
    · subst line
      simp only [takeFunction, List.cons_append, taken, head]
      split
      · split <;> rfl
      · rfl
    · simp only [takeFunction, List.cons_append, List.cons.injEq, line, false_and, false_implies,
        implies_true, behind, head]
      split
      · split <;> rfl
      · rfl

theorem openGroup_behind (h : p.Parts) (b : Bracket) :
    openGroup b (done ++ p :: rest)
      = ((openGroup b done).1, (openGroup b done).2 ++ p :: rest) := by
  cases b with
  | paren => simp only [openGroup, takeFunction_behind h]
  | brace => rfl

/-- What stands before the piece stays as it is. -/
theorem Extracts.behind {open? : Option Pending} (h : Extracts ps open? done as) (parts : p.Parts)
    (rest : List Piece) : Extracts (rest.reverse ++ p :: ps) open? (done ++ p :: rest) as := by
  induction h with
  | nil =>
    rw [show ps.reverse ++ p :: rest = (rest.reverse ++ p :: ps).reverse by simp]
    exact .nil
  | inside loose level _ ih => exact .inside loose level ih
  | closing _ ih => exact .closing ih
  | opening _ ih =>
    refine .opening ?_
    rwa [openGroup_behind parts]
  | bare bare _ ih => exact .bare bare ih

/-- Behind what has been cut into pieces, groups are cut out afresh. -/
theorem Extracts.append {open? : Option Pending} (h : Extracts ps open? done as)
    (more : Extracts qs none ps.reverse bs) : Extracts qs open? done (as ++ bs) := by
  induction h with
  | nil => exact more
  | inside loose level _ ih => exact .inside loose level ih
  | closing _ ih => exact .closing ih
  | opening _ ih => exact .opening ih
  | bare bare _ ih => exact .bare bare ih

/-- **Signs and spaces between two texts part their pieces.** -/
theorem ofText_parted {f g seps : List Char} (hf : ofText (String.ofList f) = .ok ps)
    (hg : ofText (String.ofList g) = .ok qs) (some : seps ≠ [])
    (h : ∀ c ∈ seps, (char c).Outside ∧ Parts (.atom (char c))) :
    ofText (String.ofList (f ++ (seps ++ g)))
      = .ok (ps ++ (seps.map fun c => .atom (char c)) ++ qs) := by
  rw [ofText_eq_ok_iff, String.toList_ofList] at hf hg ⊢
  have outside : ∀ a ∈ seps.map char, a.Outside :=
    List.forall_mem_map.2 fun c hc => (h c hc).1
  have plain : '[' ∉ seps := fun hm => (h _ hm).1.1 rfl
  obtain ⟨p, rest, before, parts⟩ : ∃ p rest,
      (seps.map char).reverse.map Piece.atom ++ ps.reverse = p :: rest ∧ p.Parts := by
    obtain ⟨front, c, rfl⟩ := List.eq_nil_or_concat seps |>.resolve_left some
    refine ⟨.atom (char c), (front.map char).reverse.map Piece.atom ++ ps.reverse, by simp, ?_⟩
    exact (h c (by simp)).2
  have whole : ps ++ (seps.map fun c => .atom (char c)) = rest.reverse ++ [p] := by
    have turned := congrArg List.reverse before
    simp only [List.reverse_append, List.reverse_reverse, List.reverse_cons, List.map_reverse,
      List.map_map] at turned
    exact turned
  rw [Atom.scan_append hf.not_mem, Atom.scan_append_of_not_mem plain]
  refine hf.append ?_
  rw [← @extract_eq_ok_iff "", extract_append outside, extract_eq_ok_iff, before, whole,
    List.append_assoc]
  exact hg.behind parts rest

end Piece

/-! ## Tokens -/

namespace FormulaToken

variable {done : List FormulaToken} {ps qs : List Piece}

theorem flush_append (current : List Piece) (ts us : List FormulaToken) :
    flush current ts ++ us = flush current (ts ++ us) := by
  cases current <;> rfl

/-- A space ends what stands before it. -/
theorem splitFrom_space (current ps qs : List Piece) :
    splitFrom current (ps ++ .atom (char ' ') :: qs)
      = splitFrom current ps ++ splitFrom [] qs := by
  fun_induction splitFrom current ps with
  | case1 current =>
    rw [flush_append]
    rfl
  | case2 current c ps s hs ih =>
    rw [List.cons_append, splitFrom, hs, flush_append]
    dsimp only
    rw [ih]
    rfl
  | case3 current c ps hs hb ih =>
    rw [List.cons_append, splitFrom, hs, flush_append]
    dsimp only
    rw [if_pos hb, ih]
  | case4 current c ps hs hb ih =>
    rw [List.cons_append, splitFrom, hs]
    dsimp only
    rw [if_neg hb, ih]
  | case5 current p ps hchar ih =>
    rw [List.cons_append, splitFrom, ih]
    exact hchar

theorem splitFrom_signChar (s : Sign) (ps : List Piece) :
    splitFrom [] (.atom (char s.char) :: ps) = sign s :: splitFrom [] ps := by
  rw [splitFrom, Sign.ofChar?_char]
  rfl

/-- A sign is never merged, so that nothing goes on behind it. -/
theorem mergeFrom_behind (s : Sign) (done' done ts : List FormulaToken) :
    mergeFrom (done ++ sign s :: done') ts = done'.reverse ++ sign s :: mergeFrom done ts := by
  fun_induction mergeFrom done ts with
  | case1 done => simp [mergeFrom]
  | case2 qs done ps ts hf ih => simpa [mergeFrom, hf] using ih
  | case3 qs done ps ts hf ih => simpa [mergeFrom, hf] using ih
  | case4 done t ts hn ih =>
    rw [mergeFrom]
    · exact ih
    · intro qs done' ps hd ht
      cases done with
      | nil => cases (List.cons.inj hd).1
      | cons t' done => exact hn qs done ps (by rw [(List.cons.inj hd).1]) ht

theorem mergeFrom_append_sign (s : Sign) (done ts us : List FormulaToken) :
    mergeFrom done (ts ++ sign s :: us) = mergeFrom done ts ++ sign s :: mergeFrom [] us := by
  fun_induction mergeFrom done ts with
  | case1 done =>
    have := mergeFrom_behind s done [] us
    simpa [mergeFrom] using this
  | case2 qs done ps ts hf ih => simpa [mergeFrom, hf] using ih
  | case3 qs done ps ts hf ih => simpa [mergeFrom, hf] using ih
  | case4 done t ts hn ih =>
    rw [List.cons_append, mergeFrom, ih]
    exact hn

/-- **The tokens on both sides of a sign are those of the sides alone.** -/
theorem ofPieces_signPieces (s : Sign) (ps qs : List Piece) :
    ofPieces (ps ++ signPieces s ++ qs) = ofPieces ps ++ sign s :: ofPieces qs := by
  have space : splitFrom [] (.atom (char ' ') :: qs) = splitFrom [] qs := rfl
  rw [ofPieces, List.append_assoc, signPieces, List.cons_append, splitFrom_space,
    List.cons_append, splitFrom_signChar, List.cons_append, List.nil_append, space,
    mergeFrom_append_sign]
  rfl

theorem ofPieces_sign (s : Sign) (ps : List Piece) :
    ofPieces (.atom (char s.char) :: ps) = sign s :: ofPieces ps := by
  rw [ofPieces, splitFrom_signChar]
  exact mergeFrom_append_sign s [] [] _

end FormulaToken

/-! ## Terms -/

namespace Formula

/-! ### Validation -/

theorem alternate_of_alternates {ts : List Term} (h : Alternates ts) : alternate ts = .ok () := by
  induction h with
  | value => rfl
  | @join t s ts ht hs hts ih =>
    obtain ⟨u, rest, rfl, hu, -⟩ := hts.head
    obtain ⟨sign, hs⟩ := Option.isSome_iff_exists.1 hs
    simp only [alternate, isOperator_eq_false.1 ht, isOperator_eq_false.1 hu, hs]
    exact ih

theorem getLast?_of_alternates {ts : List Term} (h : Alternates ts) :
    ts.getLast?.bind Term.sign? = none := by
  induction h with
  | value ht => exact isOperator_eq_false.1 ht
  | @join t s ts ht hs hts ih =>
    obtain ⟨u, rest, rfl, -⟩ := hts.head
    rwa [List.getLast?_cons_cons, List.getLast?_cons_cons]

/-- Terms that alternate are valid as they are. -/
theorem validateTerms_of_alternates {ts : List Term} (h : Alternates ts) :
    validateTerms config ts = .ok ts := by
  obtain ⟨t, rest, rfl, value, -⟩ := h.head
  exact validateTerms_eq_ok rfl (isOperator_eq_false.1 value) (getLast?_of_alternates h)
    (alternate_of_alternates h)

/-- With a plus or a minus in front they are valid behind a zero. -/
theorem validateTerms_of_signed {ts : List Term} (h : Alternates ts) {s : Sign}
    (hs : s = .plus ∨ s = .minus) :
    validateTerms config (.make (.operator s) [] config :: ts)
      = .ok (.make (.number 0) [] config :: .make (.operator s) [] config :: ts) := by
  have zero : Alternates
      (.make (.number 0) [] config :: .make (.operator s) [] config :: ts) := .join rfl rfl h
  have front : withLeadingZero config (.make (.operator s) [] config :: ts)
      = .ok (.make (.number 0) [] config :: .make (.operator s) [] config :: ts) := by
    rcases hs with rfl | rfl <;> rfl
  rw [validateTerms, front, bind_ok, getLast?_of_alternates zero]
  dsimp only
  rw [alternate_of_alternates zero]
  rfl

/-- The terms of a formula before validation: values and operators in turn, perhaps behind a plus or
a minus. -/
inductive Admissible (config : Config) : List Term → Prop
  | plain {ts : List Term} : Alternates ts → Admissible config ts
  | signed {ts : List Term} {s : Sign} : s = .plus ∨ s = .minus → Alternates ts →
      Admissible config (.make (.operator s) [] config :: ts)

theorem Admissible.valid {us : List Term} (h : Admissible config us) :
    ∃ ts, validateTerms config us = .ok ts := by
  cases h with
  | plain h => exact ⟨_, validateTerms_of_alternates h⟩
  | signed hs h => exact ⟨_, validateTerms_of_signed h hs⟩

theorem Admissible.join {us vs : List Term} (h : Admissible config us) (s : Sign)
    (h' : Alternates vs) : Admissible config (us ++ .make (.operator s) [] config :: vs) := by
  cases h with
  | plain h => exact .plain (h.append rfl h')
  | signed hs h => exact .signed hs (h.append rfl h')

/-! ### Texts side by side -/

variable {cs ds : List Char} {us vs : List Term} {t : Term} {s : Sign}

theorem allTerms_append {check : String → Except Error Unit} {tokens tokens' : List FormulaToken}
    (h : allTerms check config tokens = .ok us) (h' : allTerms check config tokens' = .ok vs) :
    allTerms check config (tokens ++ tokens') = .ok (us ++ vs) := by
  induction tokens generalizing us with
  | nil =>
    obtain rfl : [] = us := Except.ok.inj h
    exact h'
  | cons token tokens ih =>
    rw [allTerms_cons] at h
    obtain ⟨first, hfirst, h⟩ := bind_eq_ok.1 h
    obtain ⟨rest, hrest, h⟩ := bind_eq_ok.1 h
    obtain rfl := Except.ok.inj h
    rw [List.cons_append, allTerms_cons, hfirst, bind_ok, ih hrest, bind_ok, List.append_assoc]
    rfl

theorem normalize_ofList (cs : List Char) :
    normalize (String.ofList cs) = String.ofList (Blank.normalize cs) := by
  rw [normalize, String.toList_ofList]

/-- The terms of a text before they are validated, the formulas inside which can be read. -/
structure Listed (config : Config) (cs : List Char) (us : List Term) : Prop where
  full : Blank.normalize cs ≠ []
  dollar : '$' ∉ Blank.normalize cs
  terms : ∃ ps, Piece.ofText (String.ofList (Blank.normalize cs)) = .ok ps
    ∧ allTerms accept config (FormulaToken.ofPieces ps) = .ok us
  inside : ∀ t ∈ us, ∀ a ∈ t.formulas, ∃ vs, Reads config a vs

namespace Listed

/-- Terms that are valid are what the text is read as. -/
theorem reads (h : Listed config cs us) {ts : List Term}
    (valid : validateTerms config us = .ok ts) : Reads config (String.ofList cs) ts := by
  obtain ⟨ps, hps, hus⟩ := h.terms
  have text := normalize_ofList cs
  refine reads_iff.2 ⟨readBy_eq_ok.2 ⟨?_, ?_, ps, us, text ▸ hps, hus, valid⟩, ?_⟩
  · rw [text]
    simpa using h.full
  · rw [text, String.toList_ofList]
    exact h.dollar
  · intro t ht a ha
    rcases (of_validateTerms valid).1 with rfl | rfl
    · exact h.inside t ht a ha
    · rcases List.mem_cons.1 ht with rfl | ht
      · cases ha
      · exact h.inside t ht a ha

/-- A text that is read as a single term has that term before validation. -/
theorem of_reads (h : Reads config (String.ofList cs) [t]) : Listed config cs [t] := by
  obtain ⟨outline, inside⟩ := reads_iff.1 h
  obtain ⟨full, dollar, ps, us, hps, hus, valid⟩ := readBy_eq_ok.1 outline
  have text := normalize_ofList cs
  rw [text] at full dollar hps
  obtain rfl : us = [t] := by
    rcases (of_validateTerms valid).1 with same | zero
    · exact same.symm
    · rw [(List.cons.inj zero).2.symm] at valid
      cases valid
  rw [String.toList_ofList] at dollar
  exact ⟨by simpa using full, dollar, ⟨ps, hps, hus⟩, inside⟩

/-- White space around a text does not matter. -/
theorem padded (h : Listed config cs us) {before after : List Char} (hb : Blank.Gap before)
    (ha : Blank.Gap after) : Listed config (before ++ (cs ++ after)) us := by
  have same := Blank.normalize_padded hb ha cs
  exact ⟨same ▸ h.full, same ▸ h.dollar, same ▸ h.terms, h.inside⟩

theorem solid_sign (s : Sign) : Blank.isBlank s.char = false := by cases s <;> rfl

theorem parts_of_sign (s : Sign) {c : Char} (hc : c = s.char ∨ c = ' ') :
    (char c).Outside ∧ Piece.Parts (.atom (char c)) := by
  rcases hc with rfl | rfl
  · refine ⟨?_, Piece.parts_sign s⟩
    cases s <;> exact ⟨by decide, by decide, by decide⟩
  · exact ⟨⟨by decide, by decide, by decide⟩, Piece.parts_space⟩

/-- **Two texts with a sign between white space have the terms of both**, and the sign between
them. -/
theorem join (h : Listed config cs us) (h' : Listed config ds vs) (s : Sign)
    {before after : List Char} (hb : Blank.Gap before) (ha : Blank.Gap after)
    (some : before ≠ []) (some' : after ≠ []) :
    Listed config (cs ++ (before ++ s.char :: (after ++ ds)))
      (us ++ .make (.operator s) [] config :: vs) := by
  have text := Blank.normalize_parted (solid_sign s) hb ha some some' h.full h'.full
  obtain ⟨ps, hps, hus⟩ := h.terms
  obtain ⟨qs, hqs, hvs⟩ := h'.terms
  refine ⟨?_, ?_, ⟨ps ++ FormulaToken.signPieces s ++ qs, ?_, ?_⟩, ?_⟩
  · rw [text]
    simp
  · have noSign : '$' ≠ s.char := by cases s <;> decide
    rw [text]
    simp [h.dollar, h'.dollar, noSign]
  · rw [text]
    have parts : ∀ c ∈ [' ', s.char, ' '], (char c).Outside ∧ Piece.Parts (.atom (char c)) :=
      fun c hc => parts_of_sign s (by simpa [or_comm, or_assoc] using hc)
    exact Piece.ofText_parted hps hqs (by simp) parts
  · rw [FormulaToken.ofPieces_signPieces]
    refine allTerms_append hus ?_
    rw [allTerms_cons, hvs]
    rfl
  · intro t ht
    rcases List.mem_append.1 ht with ht | ht
    · exact h.inside t ht
    · rcases List.mem_cons.1 ht with rfl | ht
      · exact fun _ h => absurd h List.not_mem_nil
      · exact h'.inside t ht

/-- **A sign in front of a text is one more term.** -/
theorem signed (h : Listed config cs us) (s : Sign) :
    Listed config (s.char :: cs) (.make (.operator s) [] config :: us) := by
  obtain ⟨ps, hps, hus⟩ := h.terms
  obtain ⟨seps, some, signs, text, pieces⟩ : ∃ seps : List Char, seps ≠ []
      ∧ (∀ c ∈ seps, c = s.char ∨ c = ' ')
      ∧ Blank.normalize (s.char :: cs) = seps ++ Blank.normalize cs
      ∧ FormulaToken.ofPieces ((seps.map fun c => .atom (char c)) ++ ps)
        = .sign s :: FormulaToken.ofPieces ps := by
    rcases Blank.normalize_cons (solid_sign s) h.full with text | text
    · exact ⟨[s.char], by simp, by simp, text, FormulaToken.ofPieces_sign s ps⟩
    · exact ⟨[s.char, ' '], by simp, by simp, text, FormulaToken.ofPieces_sign s _⟩
  refine ⟨?_, ?_, ⟨(seps.map fun c => .atom (char c)) ++ ps, ?_, ?_⟩, ?_⟩
  · rw [text]
    simp [some]
  · rw [text]
    intro hm
    rcases List.mem_append.1 hm with hm | hm
    · rcases signs _ hm with hm | hm
      · cases s <;> cases hm
      · cases hm
    · exact h.dollar hm
  · rw [text]
    have nothing : Piece.ofText (String.ofList []) = .ok [] := by
      rw [Piece.ofText, String.toList_ofList, scan]
      rfl
    exact Piece.ofText_parted nothing hps some fun c hc => parts_of_sign s (signs c hc)
  · rw [pieces, allTerms_cons, hus]
    rfl
  · exact List.forall_mem_cons.2 ⟨fun _ h => absurd h List.not_mem_nil, h.inside⟩

/-- Digits are a number. -/
theorem digits (h : Arithmetic.IsInt cs) :
    Listed config cs [.make (.number (.int (digitsValue cs))) [] config] := by
  have alphanum : ∀ c ∈ cs, c.isAlphanum = true := fun c hc => by simp [Char.isAlphanum, h.2 c hc]
  have flat : ∀ a ∈ scan cs, a.Flat := by
    rw [Atom.scan_of_not_mem fun hm => absurd (alphanum '[' hm) (by decide)]
    exact List.forall_mem_map.2 fun c hc => Atom.flat_of_isAlphanum (alphanum c hc)
  have squeezed : Blank.squeezeFrom false cs = cs :=
    Blank.squeezeFrom_of_forall (fun c hc => Atom.isBlank_of_isAlphanum (alphanum c hc)) false
  refine of_reads (reads_leaf h.1 flat (fun hm => absurd (alphanum '$' hm) (by decide)) rfl ?_)
  rw [squeezed, Leaf.classify_of_isInt h, if_neg Bool.false_ne_true]

/-- **What can be read is a group in parentheses**, with white space around it or without. -/
theorem group (h : Listed config cs us) (admissible : Admissible config us)
    {before after : List Char} (hb : Blank.Gap before) (ha : Blank.Gap after) :
    ∃ t, t.isOperator = false
      ∧ Listed config ('(' :: (before ++ (cs ++ after) ++ [')'])) [t] := by
  obtain ⟨ts, valid⟩ := admissible.valid
  have text : "(" ++ String.ofList (before ++ (cs ++ after)) ++ ")"
      = String.ofList ('(' :: (before ++ (cs ++ after) ++ [')'])) := by
    rw [← String.toList_inj]
    simp
  exact ⟨_, rfl, of_reads (text ▸ reads_group ((h.padded hb ha).reads valid))⟩

end Listed

end Formula

end DiceFormula
