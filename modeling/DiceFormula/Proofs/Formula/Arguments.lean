import DiceFormula.Proofs.Formula.Inside
import DiceFormula.Proofs.Text.Solid
import Mathlib.Data.List.DropRight
import Mathlib.Data.List.TakeWhile

/-!
# Arguments as they are written

The arguments of a call and the members of a pool are the parts of a text between commas. Written
with commas between them they are the same arguments again (`Formula.arguments_intercalate`): no
comma stands outside of brackets in a part, and only the last one may leave brackets open
(`Atom.Parts`). The white space around a part that is lost in between holds no bracket, so the
brackets of the whole still match (`Formula.level_intercalate`).
-/

namespace DiceFormula

/-! ## Blank atoms -/

namespace Atom

/-- Whether an atom is white space. -/
def isBlank : Atom → Bool
  | char c => Blank.isBlank c
  | flavor _ => false

variable {as bs : List Atom}

theorem render_cons (a : Atom) (as : List Atom) : render (a :: as) = a.text ++ render as := rfl

theorem render_append (as bs : List Atom) : render (as ++ bs) = render as ++ render bs :=
  List.flatMap_append

/-- White space is neither a comma nor a bracket. -/
theorem of_isBlank {a : Atom} (h : a.isBlank = true) :
    a.nesting = 0 ∧ isChar "," a = false
      ∧ ∀ (b : Bracket) depth, b.level depth [a] = some depth := by
  cases a with
  | flavor body => cases h
  | char c =>
    have ne {d : Char} (hd : Blank.isBlank d = false) : c ≠ d := by
      rintro rfl
      rw [isBlank, hd] at h
      cases h
    have open1 : c ≠ '(' := ne (by decide)
    have open2 : c ≠ '\x7b' := ne (by decide)
    have close1 : c ≠ ')' := ne (by decide)
    have close2 : c ≠ '\x7d' := ne (by decide)
    have comma : c ≠ ',' := ne (by decide)
    refine ⟨?_, ?_, ?_⟩
    · simp [nesting, Bracket.ofOpening?, Bracket.isClosing, Bracket.opening, Bracket.closing,
        open1.symm, open2.symm, close1.symm, close2.symm]
    · rw [isChar, beq_eq_false_iff_ne]
      intro e
      have := congrArg String.toList e
      simp [comma] at this
    · intro b depth
      cases b <;>
        simp [Bracket.level, Bracket.opening, Bracket.closing, open1, open2, close1, close2]

theorem level_of_isBlank {b : Bracket} {depth : Nat} (h : ∀ a ∈ as, a.isBlank = true) :
    b.level depth as = some depth := by
  induction as with
  | nil => rfl
  | cons a as ih =>
    obtain ⟨ha, has⟩ := List.forall_mem_cons.1 h
    rw [← List.singleton_append, Bracket.level_append, (of_isBlank ha).2.2, Option.bind_some,
      ih has]

/-- The atoms without white space at the ends. -/
def trim (as : List Atom) : List Atom := (as.dropWhile isBlank).rdropWhile isBlank

/-- What is trimmed away is white space. -/
theorem exists_trim (as : List Atom) : ∃ before after, as = before ++ (trim as ++ after)
    ∧ (∀ a ∈ before, a.isBlank = true) ∧ ∀ a ∈ after, a.isBlank = true := by
  refine ⟨as.takeWhile isBlank, (as.dropWhile isBlank).rtakeWhile isBlank, ?_,
    fun _ => List.mem_takeWhile_imp, fun _ => List.mem_rtakeWhile_imp⟩
  rw [trim, List.rdropWhile_append_rtakeWhile, List.takeWhile_append_dropWhile]

theorem trim_subset (as : List Atom) : trim as ⊆ as := by
  obtain ⟨before, after, text, -⟩ := exists_trim as
  intro a ha
  rw [text]
  exact List.mem_append_right _ (List.mem_append_left _ ha)

theorem render_dropWhile (as : List Atom) :
    render (as.dropWhile isBlank) = Blank.trimLeft (render as) := by
  induction as with
  | nil => rfl
  | cons a as ih =>
    cases ha : a.isBlank with
    | true =>
      rw [List.dropWhile_cons_of_pos ha, render_cons, ih]
      cases a with
      | char c =>
        have blank : Blank.isBlank c = true := ha
        exact (List.dropWhile_cons_of_pos blank).symm
      | flavor body => cases ha
    | false =>
      rw [List.dropWhile_cons_of_neg (by simp [ha]), render_cons]
      cases a with
      | char c => exact (@Blank.trimLeft_of_begun (c :: render as) ha).symm
      | flavor body =>
        exact (@Blank.trimLeft_of_begun ((flavor body).text ++ render as) rfl).symm

theorem render_rdropWhile (as : List Atom) :
    render (as.rdropWhile isBlank) = Blank.trimRight (render as) := by
  induction as using List.reverseRecOn with
  | nil => rfl
  | append_singleton as a ih =>
    have last : render (as ++ [a]) = render as ++ a.text := by simp [render]
    rw [last]
    cases ha : a.isBlank with
    | true =>
      have nothing : Blank.trimRight a.text = [] := by
        cases a with
        | char c =>
          have hc : Blank.isBlank c = true := ha
          simp [text, Blank.trimRight, hc]
        | flavor body => cases ha
      rw [List.rdropWhile_concat_pos _ _ _ ha, ih, Blank.trimRight_append_of_eq_nil nothing]
    | false =>
      have all : Blank.trimRight a.text = a.text := by
        refine Blank.trimRight_of_ended ?_
        cases a with
        | char c =>
          intro d hd
          rwa [← Option.some.inj hd]
        | flavor body =>
          intro d hd
          rw [text, List.getLast?_append] at hd
          rw [← Option.some.inj hd]
          rfl
      have full : a.text ≠ [] := by cases a <;> exact List.cons_ne_nil _ _
      rw [List.rdropWhile_concat_neg _ _ _ (by simp [ha]), last,
        Blank.trimRight_append_of_ne_nil (all.symm ▸ full), all]

theorem render_trim (as : List Atom) : render (trim as) = Blank.trim (render as) := by
  rw [trim, render_rdropWhile, render_dropWhile, Blank.trim]

theorem level_trim (b : Bracket) (depth : Nat) (as : List Atom) :
    b.level depth (trim as) = b.level depth as := by
  obtain ⟨before, after, text, first, last⟩ := exists_trim as
  have step := congrArg (b.level depth) text
  rw [Bracket.level_append, level_of_isBlank first, Option.bind_some, Bracket.level_append] at step
  rw [step]
  cases hb : b.level depth (trim as) with
  | none => rfl
  | some d => exact (level_of_isBlank last).symm

/-! ## Parts between commas -/

/-- How many brackets of any kind are open after some atoms, if `depth` of them were open before. -/
def depthAfter (depth : Int) (as : List Atom) : Int := as.foldl (fun d a => d + a.nesting) depth

/-- No comma stands outside of brackets, of which `depth` are open at the start. -/
def Uncut : Int → List Atom → Prop
  | _, [] => True
  | depth, a :: as =>
    ¬(isChar "," a = true ∧ depth + a.nesting = 0) ∧ Uncut (depth + a.nesting) as

instance decidableUncut : (depth : Int) → (as : List Atom) → Decidable (Uncut depth as)
  | _, [] => inferInstanceAs (Decidable True)
  | depth, a :: as =>
    have := decidableUncut (depth + a.nesting) as
    inferInstanceAs (Decidable (¬(isChar "," a = true ∧ depth + a.nesting = 0)
      ∧ Uncut (depth + a.nesting) as))

theorem uncut_append {depth : Int} :
    Uncut depth (as ++ bs) ↔ Uncut depth as ∧ Uncut (depthAfter depth as) bs := by
  induction as generalizing depth with
  | nil => exact (and_iff_right trivial).symm
  | cons a as ih => rw [List.cons_append, Uncut, Uncut, ih, and_assoc]; rfl

theorem depthAfter_append (depth : Int) (as bs : List Atom) :
    depthAfter depth (as ++ bs) = depthAfter (depthAfter depth as) bs := List.foldl_append

theorem of_forall_isBlank {depth : Int} (h : ∀ a ∈ as, a.isBlank = true) :
    Uncut depth as ∧ depthAfter depth as = depth := by
  induction as with
  | nil => exact ⟨trivial, rfl⟩
  | cons a as ih =>
    obtain ⟨ha, has⟩ := List.forall_mem_cons.1 h
    obtain ⟨nesting, comma, -⟩ := of_isBlank ha
    rw [Uncut, depthAfter, List.foldl_cons, nesting, Int.add_zero, comma]
    exact ⟨⟨fun h => Bool.false_ne_true h.1, (ih has).1⟩, (ih has).2⟩

theorem uncut_trim (depth : Int) (as : List Atom) :
    (Uncut depth (trim as) ↔ Uncut depth as)
      ∧ depthAfter depth (trim as) = depthAfter depth as := by
  obtain ⟨before, after, text, first, last⟩ := exists_trim as
  obtain ⟨uncut, same⟩ := @of_forall_isBlank before depth first
  have rest := @of_forall_isBlank after (depthAfter depth (trim as)) last
  have cut : Uncut depth as ↔ Uncut depth (before ++ (trim as ++ after)) := by rw [← text]
  have count : depthAfter depth as = depthAfter depth (before ++ (trim as ++ after)) := by
    rw [← text]
  rw [cut, count, uncut_append, uncut_append, depthAfter_append, depthAfter_append, same, rest.2]
  exact ⟨⟨fun h => ⟨uncut, h, rest.1⟩, fun h => h.2.1⟩, rfl⟩

/-- Parts of a text between commas: all brackets that are opened in a part are closed there, but for
the last part. -/
inductive Parts : List (List Atom) → Prop
  | last {p : List Atom} : Uncut 0 p → Parts [p]
  | next {p : List Atom} {ps : List (List Atom)} : Uncut 0 p → depthAfter 0 p = 0 → Parts ps →
      Parts (p :: ps)

/-- Parts with commas between them. -/
def joined (ps : List (List Atom)) : List Atom := [char ','].intercalate ps

theorem Parts.ne_nil {ps : List (List Atom)} (h : Parts ps) : ps ≠ [] := by
  cases h <;> exact List.cons_ne_nil _ _

theorem joined_cons {ps : List (List Atom)} (h : ps ≠ []) (p : List Atom) :
    joined (p :: ps) = p ++ char ',' :: joined ps := by
  rw [joined, List.intercalate_cons_of_ne_nil h, List.append_assoc]
  rfl

theorem splitAt_append {depth : Int} {current : List Atom} (h : Uncut depth as) (bs : List Atom) :
    splitAt "," depth current (as ++ bs)
      = splitAt "," (depthAfter depth as) (as.reverse ++ current) bs := by
  induction as generalizing depth current with
  | nil => rfl
  | cons a as ih =>
    obtain ⟨notHere, h⟩ := h
    have step : (isChar "," a && depth + a.nesting == 0) = false := by
      rw [Bool.eq_false_iff]
      simpa using notHere
    rw [List.cons_append, splitAt, if_neg (by simp [step]), ih h, List.reverse_cons,
      List.append_assoc]
    rfl

/-- **Parts with commas between them are split into these parts again.** -/
theorem splitAt_joined {ps : List (List Atom)} (h : Parts ps) :
    splitAt "," 0 [] (joined ps) = ps := by
  induction h with
  | @last p uncut =>
    have whole := @splitAt_append p 0 [] uncut []
    rw [List.append_nil, List.append_nil] at whole
    rw [joined, List.intercalate_singleton, whole, splitAt, List.reverse_reverse]
  | @next p ps uncut balanced hps ih =>
    have comma : (isChar "," (char ',') && (0 : Int) + (char ',').nesting == 0) = true := by decide
    have start : (0 : Int) + (char ',').nesting = 0 := by decide
    rw [joined_cons hps.ne_nil, splitAt_append uncut, balanced, List.append_nil, splitAt,
      if_pos comma, start, List.reverse_reverse, ih]

theorem isChar_comma {a : Atom} (h : isChar "," a = true) : a = char ',' := by
  cases a with
  | char c =>
    have := congrArg String.toList (beq_iff_eq.1 h)
    simp at this
    rw [this]
  | flavor body => cases h

/-- What a text is split into are parts. -/
theorem parts_splitAt {depth : Int} {current : List Atom} (uncut : Uncut 0 current.reverse)
    (hd : depthAfter 0 current.reverse = depth) (as : List Atom) :
    Parts (splitAt "," depth current as) := by
  fun_induction splitAt "," depth current as with
  | case1 depth current => exact .last uncut
  | case2 depth current a as next cut ih =>
    obtain ⟨comma, closed⟩ := Bool.and_eq_true_iff.1 cut
    obtain rfl := isChar_comma comma
    have start : next = depth := Int.add_zero depth
    have zero : depth = 0 := start ▸ beq_iff_eq.1 closed
    exact .next uncut (hd.trans zero) (ih trivial (zero ▸ start.symm))
  | case3 depth current a as next cut ih =>
    rw [List.reverse_cons] at ih
    refine ih (uncut_append.2 ⟨uncut, ?_⟩) ?_
    · rw [hd]
      exact ⟨fun h => cut (by simp [next, h.1, h.2]), trivial⟩
    · rw [depthAfter_append, hd]
      rfl

/-- Parts stay parts when they are trimmed. -/
theorem Parts.trim {ps : List (List Atom)} (h : Parts ps) : Parts (ps.map Atom.trim) := by
  induction h with
  | last uncut => exact .last ((uncut_trim 0 _).1.2 uncut)
  | next uncut balanced _ ih =>
    exact .next ((uncut_trim 0 _).1.2 uncut) ((uncut_trim 0 _).2.trans balanced) ih

theorem splitAt_ne_nil (depth : Int) (current as : List Atom) :
    splitAt "," depth current as ≠ [] := by
  fun_induction splitAt "," depth current as with
  | case1 | case2 => exact List.cons_ne_nil _ _
  | case3 depth current a as next cut ih => exact ih

theorem joined_splitAt (depth : Int) (current as : List Atom) :
    joined (splitAt "," depth current as) = current.reverse ++ as := by
  fun_induction splitAt "," depth current as with
  | case1 depth current => rw [joined, List.intercalate_singleton, List.append_nil]
  | case2 depth current a as next cut ih =>
    obtain rfl := isChar_comma (Bool.and_eq_true_iff.1 cut).1
    rw [joined_cons (splitAt_ne_nil _ _ _), ih]
    rfl
  | case3 depth current a as next cut ih => rw [ih, Piece.reverse_append_cons]

/-- Trimming parts changes nothing about brackets. -/
theorem level_joined (b : Bracket) (depth : Nat) (ps : List (List Atom)) :
    b.level depth (joined (ps.map trim)) = b.level depth (joined ps) := by
  have comma (depth : Nat) (as : List Atom) :
      b.level depth (char ',' :: as) = b.level depth as := by cases b <;> rfl
  induction ps generalizing depth with
  | nil => rfl
  | cons p ps ih =>
    by_cases last : ps = []
    · subst last
      rw [List.map_singleton, joined, joined, List.intercalate_singleton,
        List.intercalate_singleton, level_trim]
    · have full : ps.map trim ≠ [] := fun e => last (List.map_eq_nil_iff.1 e)
      rw [List.map_cons, joined_cons full, joined_cons last, Bracket.level_append,
        Bracket.level_append, level_trim]
      simp only [comma, ih]

theorem mem_joined {ps : List (List Atom)} {a : Atom} (h : a ∈ joined ps) :
    a = char ',' ∨ ∃ p ∈ ps, a ∈ p := by
  induction ps with
  | nil => cases h
  | cons p ps ih =>
    by_cases empty : ps = []
    · subst empty
      rw [joined, List.intercalate_singleton] at h
      exact .inr ⟨p, List.mem_cons_self, h⟩
    · rw [joined_cons empty, List.mem_append, List.mem_cons] at h
      rcases h with h | h | h
      · exact .inr ⟨p, List.mem_cons_self, h⟩
      · exact .inl h
      · refine (ih h).imp_right ?_
        rintro ⟨q, hq, ha⟩
        exact ⟨q, List.mem_cons_of_mem _ hq, ha⟩

theorem render_joined (ps : List (List Atom)) :
    render (joined ps) = [','].intercalate (ps.map render) := by
  induction ps with
  | nil => rfl
  | cons p ps ih =>
    by_cases empty : ps = []
    · subst empty
      rw [joined, List.intercalate_singleton, List.map_singleton, List.intercalate_singleton]
    · have full : ps.map render ≠ [] := fun e => empty (List.map_eq_nil_iff.1 e)
      rw [joined_cons empty, List.map_cons, List.intercalate_cons_of_ne_nil full, ← ih,
        render_append, List.append_assoc]
      rfl

end Atom

/-! ## Arguments -/

namespace Formula

open Atom

/-- The arguments of a text as atoms. -/
def parts (inner : String) : List (List Atom) :=
  (splitAt "," 0 [] (scan inner.toList)).map Atom.trim

theorem parts_of_arguments {inner : String} {args : List String} (h : arguments inner = .ok args) :
    args = (parts inner).map (fun p => String.ofList (render p))
      ∧ args.any (·.isEmpty) = false ∧ char '[' ∉ scan inner.toList := by
  obtain ⟨split, full⟩ := arguments_eq_ok.1 h
  obtain ⟨closed, rfl⟩ := splitTopLevel_eq_ok.1 split
  refine ⟨?_, full, closed⟩
  simp [parts, render_trim, Function.comp_def]

/-- The text of arguments with commas between them. -/
theorem toList_intercalate_arguments {inner : String} {args : List String}
    (h : arguments inner = .ok args) :
    (",".intercalate args).toList = render (joined (parts inner)) := by
  rw [String.toList_intercalate, render_joined, (parts_of_arguments h).1, List.map_map]
  simp [Function.comp_def]

/-- What stands in the arguments stands in the text they are taken from, but for the commas. -/
theorem mem_scan_of_mem_joined {inner : String} {a : Atom} (h : a ∈ joined (parts inner)) :
    a = char ',' ∨ a ∈ scan inner.toList := by
  refine (mem_joined h).imp_right ?_
  rintro ⟨p, hp, ha⟩
  obtain ⟨q, hq, rfl⟩ := List.mem_map.1 hp
  simpa using (infix_of_mem_splitAt hq).subset (trim_subset q ha)

theorem neat_of_mem_joined {inner : String} {args : List String} (h : arguments inner = .ok args) :
    ∀ a ∈ joined (parts inner), a.Neat := by
  intro a ha
  rcases mem_scan_of_mem_joined ha with rfl | inside
  · exact (by decide : ',' ≠ '[')
  · cases a with
    | char c =>
      rintro rfl
      exact (parts_of_arguments h).2.2 inside
    | flavor body => exact not_mem_of_mem_scan inside

theorem scan_intercalate_arguments {inner : String} {args : List String}
    (h : arguments inner = .ok args) :
    scan (",".intercalate args).toList = joined (parts inner) := by
  rw [toList_intercalate_arguments h, scan_render (neat_of_mem_joined h)]

/-- **Arguments with commas between them are these arguments again.** -/
theorem arguments_intercalate {inner : String} {args : List String}
    (h : arguments inner = .ok args) : arguments (",".intercalate args) = .ok args := by
  obtain ⟨text, full, -⟩ := parts_of_arguments h
  have neat := neat_of_mem_joined h
  have whole : Parts (parts inner) := (@parts_splitAt 0 [] trivial rfl _).trim
  have split : splitTopLevel (",".intercalate args) "," = .ok args := by
    rw [splitTopLevel_eq_ok, scan_intercalate_arguments h, splitAt_joined whole]
    refine ⟨fun loose => neat _ loose rfl, ?_⟩
    rw [text, parts, List.map_map, List.map_map]
    refine List.map_congr_left fun p _ => ?_
    simp [render_trim, Blank.trim_trim]
  exact arguments_eq_ok.2 ⟨split, full⟩

/-- Brackets match in the arguments if they do so in the text they are taken from. -/
theorem level_intercalate {inner : String} {args : List String} (h : arguments inner = .ok args)
    (b : Bracket) (depth : Nat) :
    b.level depth (scan (",".intercalate args).toList) = b.level depth (scan inner.toList) := by
  rw [scan_intercalate_arguments h, parts, level_joined, joined_splitAt]
  rfl

theorem mem_intercalate_arguments {inner : String} {args : List String}
    (h : arguments inner = .ok args) {c : Char} (hc : c ∈ (",".intercalate args).toList) :
    c = ',' ∨ c ∈ inner.toList := by
  rw [toList_intercalate_arguments h] at hc
  obtain ⟨a, ha, hc⟩ := List.mem_flatMap.1 hc
  rcases mem_scan_of_mem_joined ha with rfl | inside
  · exact .inl (List.mem_singleton.1 hc)
  · rw [← render_scan inner.toList]
    exact .inr (List.mem_flatMap.2 ⟨a, inside, hc⟩)

theorem solid_intercalate {css : List (List Char)} (h : ∀ cs ∈ css, Blank.Solid cs) :
    Blank.Solid ([','].intercalate css) := by
  induction css with
  | nil => exact Blank.solid_of_forall (List.forall_mem_nil _)
  | cons cs css ih =>
    obtain ⟨hcs, hcss⟩ := List.forall_mem_cons.1 h
    by_cases last : css = []
    · subst last
      rwa [List.intercalate_singleton]
    · rw [List.intercalate_cons_of_ne_nil last, List.append_assoc]
      exact hcs.append ((ih hcss).cons rfl)

theorem solid_intercalate_arguments {inner : String} {args : List String}
    (h : arguments inner = .ok args) (squeezed : Blank.IsSqueezed false inner.toList) :
    Blank.Solid (",".intercalate args).toList := by
  rw [String.toList_intercalate]
  refine solid_intercalate ?_
  intro cs hcs
  obtain ⟨a, ha, rfl⟩ := List.mem_map.1 hcs
  obtain ⟨as, stretch, rfl⟩ := exists_infix_of_arguments h a ha
  rw [String.toList_ofList]
  refine Blank.solid_trim (squeezed.stretch ?_)
  obtain ⟨before, after, text⟩ := stretch
  refine ⟨render before, render after, ?_⟩
  rw [← render_append, ← render_append, text, render_scan]

end Formula

end DiceFormula
