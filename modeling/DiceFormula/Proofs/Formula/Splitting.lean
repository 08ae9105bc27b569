import DiceFormula.Proofs.Text.Padded
import Mathlib.Data.List.Forall2

/-!
# Splitting at commas

A text is split at the commas that stand outside of all brackets, and what is between them is
trimmed. Arguments that are written with commas, and any white space, between them are what such a
text is split into; and every text in which the flavors are closed is written that way, by the parts
it is split into (`splitTopLevel_undoes_joining`). The parts on the level of atoms are those of
`Atom.Parts`; `Atom.outerCommas` counts the commas without splitting anything.
-/

namespace DiceFormula

/-! ## Commas outside of brackets -/

namespace Atom

variable {as bs : List Atom}

/-- How many commas stand outside of brackets, of which `depth` are open at the start. -/
def outerCommas (depth : Int) : List Atom → Nat
  | [] => 0
  | a :: as => (if a = char ',' ∧ depth = 0 then 1 else 0) + outerCommas (depth + a.nesting) as

/-- A comma is a comma at the depth behind it: it opens and closes nothing. -/
theorem isChar_and_iff (a : Atom) (depth : Int) :
    (isChar "," a = true ∧ depth + a.nesting = 0) ↔ (a = char ',' ∧ depth = 0) := by
  have comma : (char ',').nesting = 0 := rfl
  constructor
  · rintro ⟨h, outside⟩
    obtain rfl := isChar_comma h
    rw [comma, Int.add_zero] at outside
    exact ⟨rfl, outside⟩
  · rintro ⟨rfl, rfl⟩
    exact ⟨rfl, rfl⟩

theorem uncut_iff (depth : Int) (as : List Atom) : Uncut depth as ↔ outerCommas depth as = 0 := by
  induction as generalizing depth with
  | nil => exact iff_of_true trivial rfl
  | cons a as ih =>
    rw [Uncut, outerCommas, isChar_and_iff, ih, Nat.add_eq_zero_iff]
    simp

/-- There is one part more than there are commas outside of brackets. -/
theorem length_splitAt (depth : Int) (current as : List Atom) :
    (splitAt "," depth current as).length = outerCommas depth as + 1 := by
  fun_induction splitAt "," depth current as with
  | case1 => rfl
  | case2 depth current a as next cut ih =>
    have here := (isChar_and_iff a depth).1 (by simpa [next] using cut)
    rw [List.length_cons, ih, outerCommas, if_pos here, Nat.add_comm 1]
  | case3 depth current a as next cut ih =>
    have notHere : ¬(a = char ',' ∧ depth = 0) :=
      fun h => cut (by simpa [next] using (isChar_and_iff a depth).2 h)
    rw [ih, outerCommas, if_neg notHere, Nat.zero_add]

end Atom

open Atom (char scan render Parts joined outerCommas depthAfter)

/-! ## Arguments in white space -/

/-- The argument with white space around it. -/
def Pads (cs : List Char) (arg : String) : Prop :=
  ∃ before after, cs = before ++ (arg.toList ++ after) ∧ Blank.Gap before ∧ Blank.Gap after

/-- A text that can be told from others by the commas between them: its flavors are closed, it closes
as many brackets as it opens, all its commas stand in brackets, and it has no white space at the
ends. -/
structure IsArgument (arg : String) : Prop where
  closed : char '[' ∉ scan arg.toList
  balanced : depthAfter 0 (scan arg.toList) = 0
  whole : outerCommas 0 (scan arg.toList) = 0
  trimmed : Blank.trim arg.toList = arg.toList

instance : DecidablePred IsArgument := fun arg =>
  decidable_of_iff
    (char '[' ∉ scan arg.toList ∧ depthAfter 0 (scan arg.toList) = 0
      ∧ outerCommas 0 (scan arg.toList) = 0 ∧ Blank.trim arg.toList = arg.toList)
    ⟨fun ⟨closed, balanced, whole, trimmed⟩ => ⟨closed, balanced, whole, trimmed⟩,
      fun h => ⟨h.closed, h.balanced, h.whole, h.trimmed⟩⟩

theorem Pads.trim {cs : List Char} {arg : String} (h : Pads cs arg)
    (trimmed : Blank.trim arg.toList = arg.toList) :
    String.ofList (Blank.trim cs) = arg := by
  obtain ⟨before, after, rfl, hb, ha⟩ := h
  rw [Blank.trim_padded hb ha, trimmed, String.ofList_toList]

/-- White space around an argument is white space around its atoms. -/
theorem Pads.scan_eq {cs : List Char} {arg : String} (h : Pads cs arg)
    (closed : char '[' ∉ scan arg.toList) :
    ∃ before after : List Atom, scan cs = before ++ (scan arg.toList ++ after)
      ∧ (∀ a ∈ before, a.isBlank = true) ∧ ∀ a ∈ after, a.isBlank = true := by
  obtain ⟨before, after, rfl, hb, ha⟩ := h
  have open1 : '[' ∉ before := fun hm => by cases hb _ hm
  have open2 : '[' ∉ after := fun hm => by cases ha _ hm
  refine ⟨before.map char, after.map char, ?_, List.forall_mem_map.2 hb, List.forall_mem_map.2 ha⟩
  rw [Atom.scan_append_of_not_mem open1, Atom.scan_append closed, Atom.scan_of_not_mem open2]

/-- White space around an argument has no commas and no brackets. -/
theorem Pads.part {cs : List Char} {arg : String} (h : Pads cs arg) (isArgument : IsArgument arg) :
    char '[' ∉ scan cs ∧ Atom.Uncut 0 (scan cs) ∧ depthAfter 0 (scan cs) = 0 := by
  obtain ⟨before, after, text, first, last⟩ := h.scan_eq isArgument.closed
  have notBlank : (char '[').isBlank = false := rfl
  obtain ⟨uncut, same⟩ := @Atom.of_forall_isBlank before 0 first
  obtain ⟨uncut', same'⟩ := @Atom.of_forall_isBlank after 0 last
  refine ⟨?_, ?_, ?_⟩
  · rw [text, List.mem_append, List.mem_append]
    rintro (hm | hm | hm)
    · exact absurd (first _ hm) (by simp [notBlank])
    · exact isArgument.closed hm
    · exact absurd (last _ hm) (by simp [notBlank])
  · rw [text, Atom.uncut_append, Atom.uncut_append, same, isArgument.balanced, Atom.uncut_iff _ (scan _)]
    exact ⟨uncut, isArgument.whole, uncut'⟩
  · rw [text, Atom.depthAfter_append, Atom.depthAfter_append, same, isArgument.balanced, same']

/-! ## Joining -/

/-- Texts with commas between them are taken apart one by one. -/
theorem scan_intercalate {css : List (List Char)} (closed : ∀ cs ∈ css, char '[' ∉ scan cs) :
    scan ([','].intercalate css) = joined (css.map scan) := by
  induction css with
  | nil => simp [joined, scan]
  | cons cs css ih =>
    obtain ⟨hcs, hcss⟩ := List.forall_mem_cons.1 closed
    by_cases last : css = []
    · subst last
      rw [List.intercalate_singleton, List.map_singleton, joined, List.intercalate_singleton]
    · have full : css.map scan ≠ [] := fun e => last (List.map_eq_nil_iff.1 e)
      rw [List.intercalate_cons_of_ne_nil last, List.append_assoc, Atom.scan_append hcs,
        Atom.scan_append_of_not_mem (by decide), ih hcss, List.map_cons (f := scan),
        Atom.joined_cons full]
      rfl

theorem parts_of_forall {css : List (List Char)} (full : css ≠ [])
    (h : ∀ cs ∈ css, Atom.Uncut 0 (scan cs) ∧ depthAfter 0 (scan cs) = 0) :
    Parts (css.map scan) := by
  induction css with
  | nil => exact absurd rfl full
  | cons cs css ih =>
    obtain ⟨⟨uncut, balanced⟩, hcss⟩ := List.forall_mem_cons.1 h
    by_cases last : css = []
    · subst last
      exact .last uncut
    · exact .next uncut balanced (ih last hcss)

/-- What is known of every padded argument, and what is left of it when it is trimmed. -/
theorem of_forall₂_pads {args : List String} {padded : List (List Char)}
    (pads : List.Forall₂ Pads padded args) (h : ∀ a ∈ args, IsArgument a) :
    (∀ cs ∈ padded, char '[' ∉ scan cs ∧ Atom.Uncut 0 (scan cs) ∧ depthAfter 0 (scan cs) = 0)
      ∧ padded.map (fun cs => String.ofList (Blank.trim cs)) = args := by
  induction pads with
  | nil => exact ⟨List.forall_mem_nil _, rfl⟩
  | cons hp _ ih =>
    obtain ⟨ha, has⟩ := List.forall_mem_cons.1 h
    obtain ⟨parts, trimmed⟩ := ih has
    refine ⟨List.forall_mem_cons.2 ⟨hp.part ha, parts⟩, ?_⟩
    rw [List.map_cons, hp.trim ha.trimmed, trimmed]

/-- Arguments with commas and white space between them are what the text is split into. -/
theorem splitTopLevel_intercalate {args : List String} {padded : List (List Char)}
    (full : args ≠ []) (h : ∀ a ∈ args, IsArgument a) (pads : List.Forall₂ Pads padded args) :
    splitTopLevel (String.ofList ([','].intercalate padded)) "," = .ok args := by
  obtain ⟨each, trimmed⟩ := of_forall₂_pads pads h
  have scanned := scan_intercalate fun cs hcs => (each cs hcs).1
  have some : padded ≠ [] := by
    rintro rfl
    exact full trimmed.symm
  have parts := parts_of_forall some fun cs hcs => (each cs hcs).2
  have closed : char '[' ∉ scan (String.ofList ([','].intercalate padded)).toList := by
    rw [String.toList_ofList, scanned]
    intro hm
    rcases Atom.mem_joined hm with e | ⟨as, has, hm⟩
    · exact absurd e (by decide)
    · obtain ⟨cs, hcs, rfl⟩ := List.mem_map.1 has
      exact (each cs hcs).1 hm
  refine splitTopLevel_eq_ok.2 ⟨closed, ?_⟩
  rw [String.toList_ofList, scanned, Atom.splitAt_joined parts, List.map_map, ← trimmed]
  refine List.map_congr_left fun cs _ => ?_
  simp only [Function.comp_apply, Atom.render_scan]

/-- Every text in which the flavors are closed is made of the parts it is split into. -/
theorem exists_padded {text : String} (closed : char '[' ∉ scan text.toList) :
    ∃ args padded, splitTopLevel text "," = .ok args
      ∧ args.length = outerCommas 0 (scan text.toList) + 1
      ∧ (∀ a ∈ args, Blank.trim a.toList = a.toList)
      ∧ text.toList = [','].intercalate padded ∧ List.Forall₂ Pads padded args
      ∧ Parts (padded.map scan) := by
  have parts := @Atom.parts_splitAt 0 [] trivial rfl (scan text.toList)
  have whole := Atom.joined_splitAt 0 [] (scan text.toList)
  have count := Atom.length_splitAt 0 [] (scan text.toList)
  have split := (@splitTopLevel_eq_ok text "," _).2 ⟨closed, rfl⟩
  have neat : ∀ part ∈ Atom.splitAt "," 0 [] (scan text.toList), scan (render part) = part := by
    intro part hpart
    have stretch := Atom.infix_of_mem_splitAt hpart
    exact Atom.scan_render fun a ha => Atom.neat_of_mem_scan closed a (stretch.subset ha)
  generalize Atom.splitAt "," 0 [] (scan text.toList) = raws at *
  refine ⟨_, raws.map render, split, ?_, ?_, ?_, ?_, ?_⟩
  · rw [List.length_map, count]
  · rw [List.forall_mem_map]
    intro part _
    rw [String.toList_ofList, Blank.trim_trim]
  · rw [← Atom.render_joined, whole, List.reverse_nil, List.nil_append, Atom.render_scan]
  · rw [List.forall₂_map_left_iff, List.forall₂_map_right_iff, List.forall₂_same]
    intro part _
    obtain ⟨before, after, text, first, last⟩ := Blank.exists_trim (render part)
    exact ⟨before, after, by rw [String.toList_ofList]; exact text, first, last⟩
  · have same : raws.map (scan ∘ render) = raws :=
      (List.map_congr_left neat).trans (List.map_id raws)
    rwa [List.map_map, same]

/-! ## Splitting and joining -/

/-- **Splitting undoes joining**, whatever white space stands around the commas; and every text with
closed flavors is joined, up to white space, of the parts that it is split into at the commas outside
of brackets. -/
theorem splitTopLevel_undoes_joining :
    (∀ (args : List String) (padded : List (List Char)), args ≠ [] → (∀ a ∈ args, IsArgument a) →
        List.Forall₂ Pads padded args →
        splitTopLevel (String.ofList ([','].intercalate padded)) "," = .ok args)
      ∧ ∀ text : String, char '[' ∉ scan text.toList →
        ∃ args padded, splitTopLevel text "," = .ok args
          ∧ args.length = outerCommas 0 (scan text.toList) + 1
          ∧ (∀ a ∈ args, Blank.trim a.toList = a.toList)
          ∧ text.toList = [','].intercalate padded ∧ List.Forall₂ Pads padded args
          ∧ Parts (padded.map scan) :=
  ⟨fun _ _ full h pads => splitTopLevel_intercalate full h pads, fun _ closed => exists_padded closed⟩

/-- Commas in brackets and in flavors part nothing, nor does one behind a bracket too many. -/
theorem splitTopLevel_undoes_joining_nested :
    (∀ a ∈ ["1d4", "max(1, 2)[a, b)]", "{3,4}"], IsArgument a)
      ∧ splitTopLevel "1d4 ,\tmax(1, 2)[a, b)],{3,4} " ","
        = .ok ["1d4", "max(1, 2)[a, b)]", "{3,4}"]
      ∧ char '[' ∉ scan "1 ,(2,3),),4".toList
      ∧ ∃ args padded, splitTopLevel "1 ,(2,3),),4" "," = .ok args ∧ args.length = 3
        ∧ (∀ a ∈ args, Blank.trim a.toList = a.toList)
        ∧ "1 ,(2,3),),4".toList = [','].intercalate padded ∧ List.Forall₂ Pads padded args
        ∧ Parts (padded.map scan) := by
  have isArgument : ∀ a ∈ ["1d4", "max(1, 2)[a, b)]", "{3,4}"], IsArgument a := by decide +kernel
  have pads : List.Forall₂ Pads ["1d4 ".toList, "\tmax(1, 2)[a, b)]".toList, "{3,4} ".toList]
      ["1d4", "max(1, 2)[a, b)]", "{3,4}"] :=
    .cons ⟨[], [' '], rfl, by decide, by decide⟩ <|
      .cons ⟨['\t'], [], rfl, by decide, by decide⟩ <|
        .cons ⟨[], [' '], rfl, by decide, by decide⟩ .nil
  have joining := splitTopLevel_undoes_joining.1 _ _ (List.cons_ne_nil _ _) isArgument pads
  have text : String.ofList ([','].intercalate
      ["1d4 ".toList, "\tmax(1, 2)[a, b)]".toList, "{3,4} ".toList])
      = "1d4 ,\tmax(1, 2)[a, b)],{3,4} " := by decide
  have closed : char '[' ∉ scan "1 ,(2,3),),4".toList := by decide +kernel
  have count : outerCommas 0 (scan "1 ,(2,3),),4".toList) = 2 := by decide +kernel
  have split := splitTopLevel_undoes_joining.2 _ closed
  rw [text] at joining
  rw [count] at split
  exact ⟨isArgument, joining, closed, split⟩

end DiceFormula
