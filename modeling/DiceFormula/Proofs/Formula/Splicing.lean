import DiceFormula.Proofs.Formula.Symbolic

/-!
# Symbols and their values

A path that leads through nested data to an integer (`Symbols.Resolves`) has that integer as its
value (`Symbols.lookup_of_resolves`). Where nothing behind a path goes on with it, the path is read
to its end and replaced by the text of its value (`Symbols.Becomes.reference`), so that an
expression becomes the same expression with its values in place of its symbols
(`Symbolic.substitute_written`).
-/

namespace DiceFormula

namespace Symbols

/-! ## Paths -/

/-- A path leads to an integer through mappings, lists, tuples and symbol tables. A symbol table
stands around data, never around another one. -/
inductive Resolves : Value → List String → Int → Prop
  | value (n : Int) : Resolves (.int n) [] n
  | entry {es : List (String × Value)} {key : String} {v : Value} {keys : List String} {n : Int} :
      es.lookup key = some v → Resolves v keys n → Resolves (.mapping es) (key :: keys) n
  | item {vs : List Value} {key : String} {v : Value} {keys : List String} {n : Int} :
      Arithmetic.IsInt key.toList → vs[digitsValue key.toList]? = some v → Resolves v keys n →
      Resolves (.list vs) (key :: keys) n
  | element {vs : List Value} {key : String} {v : Value} {keys : List String} {n : Int} :
      Arithmetic.IsInt key.toList → vs[digitsValue key.toList]? = some v → Resolves v keys n →
      Resolves (.tuple vs) (key :: keys) n
  | table {d : Value} {keys : List String} {n : Int} : (∀ d', d ≠ .table d') →
      Resolves d keys n → Resolves (.table d) keys n

theorem walk_of_resolves {node : Value} {keys : List String} {n : Int}
    (h : Resolves node keys n) (path : String) :
    ∃ v, walk path node keys = .ok v ∧ unwrap v = .int n := by
  induction h with
  | value n => exact ⟨_, rfl, rfl⟩
  | entry found _ ih =>
    obtain ⟨v, walked, value⟩ := ih
    refine ⟨v, ?_, value⟩
    simp only [walk, unwrap, step, found, bind_ok, walked]
  | item digits found _ ih | element digits found _ ih =>
    obtain ⟨v, walked, value⟩ := ih
    have all := Leaf.allDigits_of_isInt digits
    have read := Leaf.readNat?_of_isInt digits
    refine ⟨v, ?_, value⟩
    simp only [walk, unwrap, step, all, read, if_true, found, bind_ok, walked]
  | @table d keys n single h ih =>
    obtain ⟨v, walked, value⟩ := ih
    have same : unwrap d = d := by
      cases d with
      | table d' => exact absurd rfl (single d')
      | _ => rfl
    cases keys with
    | nil =>
      obtain rfl := Except.ok.inj walked
      exact ⟨_, rfl, same.symm.trans value⟩
    | cons key keys =>
      refine ⟨v, ?_, value⟩
      rw [walk] at walked ⊢
      rwa [same] at walked

theorem splitDots_append {name : List Char} (h : '.' ∉ name) (cs : List Char) :
    splitDots (name ++ '.' :: cs) = name :: splitDots cs := by
  induction name with
  | nil =>
    obtain ⟨p, ps, hs⟩ := List.exists_cons_of_ne_nil (splitDots_ne_nil cs)
    rw [List.nil_append, splitDots, hs]
    rfl
  | cons c name ih =>
    obtain ⟨hc, hname⟩ := List.ne_and_not_mem_of_not_mem_cons h
    rw [List.cons_append, splitDots, ih hname]
    dsimp only
    rw [if_neg (by simpa using hc.symm)]

theorem splitDots_of_not_mem {name : List Char} (h : '.' ∉ name) : splitDots name = [name] := by
  induction name with
  | nil => rfl
  | cons c name ih =>
    obtain ⟨hc, hname⟩ := List.ne_and_not_mem_of_not_mem_cons h
    rw [splitDots, ih hname]
    dsimp only
    rw [if_neg (by simpa using hc.symm)]

/-- Names with dots between them are told apart at the dots. -/
theorem splitDots_intercalate {names : List (List Char)} (some : names ≠ [])
    (h : ∀ name ∈ names, '.' ∉ name) : splitDots (['.'].intercalate names) = names := by
  induction names with
  | nil => exact absurd rfl some
  | cons name names ih =>
    obtain ⟨hname, hnames⟩ := List.forall_mem_cons.1 h
    by_cases last : names = []
    · subst last
      simpa using splitDots_of_not_mem hname
    · rw [List.intercalate_cons_of_ne_nil last, List.append_assoc, List.singleton_append,
        splitDots_append hname, ih last hnames]

/-! ## Reading a path -/

/-- Nothing at the front goes on with a path. -/
def Stops (cs : List Char) : Prop := ∀ c ∈ cs.head?, isNameChar c = false ∧ c ≠ '.'

theorem takeWhile_name {name rest : List Char} (h : ∀ c ∈ name, isNameChar c = true)
    (stop : ∀ c ∈ rest.head?, isNameChar c = false) :
    (name ++ rest).takeWhile isNameChar = name := by
  rw [List.takeWhile_append_of_pos h]
  cases rest with
  | nil => simp
  | cons c rest => simp [stop c rfl]

theorem length_le_intercalate {names : List (List Char)} (h : ∀ name ∈ names, name ≠ []) :
    names.length ≤ (['.'].intercalate names).length := by
  induction names with
  | nil => exact Nat.le_refl _
  | cons name names ih =>
    obtain ⟨hname, hnames⟩ := List.forall_mem_cons.1 h
    have full := List.length_pos_of_ne_nil hname
    by_cases last : names = []
    · subst last
      rw [List.intercalate_singleton]
      exact full
    · have rest := ih hnames
      rw [List.intercalate_cons_of_ne_nil last, List.length_append, List.length_append,
        List.length_cons]
      simp only [List.length_singleton]
      omega

theorem intercalate_ne_nil {names : List (List Char)} (some : names ≠ [])
    (h : ∀ name ∈ names, name ≠ []) : ['.'].intercalate names ≠ [] :=
  List.ne_nil_of_length_pos
    (Nat.lt_of_lt_of_le (List.length_pos_of_ne_nil some) (length_le_intercalate h))

/-- A path is read to its end. -/
theorem takePath_intercalate {names : List (List Char)} (some : names ≠ [])
    (h : ∀ name ∈ names, name ≠ [] ∧ ∀ c ∈ name, isNameChar c = true) {rest : List Char}
    (stop : Stops rest) {fuel : Nat} (hf : names.length ≤ fuel) :
    takePath fuel (['.'].intercalate names ++ rest) = (['.'].intercalate names, rest) := by
  induction names generalizing fuel with
  | nil => exact absurd rfl some
  | cons name names ih =>
    obtain ⟨⟨full, hname⟩, hnames⟩ := List.forall_mem_cons.1 h
    obtain ⟨fuel, rfl⟩ := Nat.exists_eq_add_one.2 (Nat.zero_lt_of_lt hf)
    by_cases last : names = []
    · subst last
      have taken := takeWhile_name hname fun c hc => (stop c hc).1
      rw [List.intercalate_singleton, takePath, taken, List.drop_left, if_neg (by simpa using full)]
      split
      · next r => exact absurd rfl (stop '.' rfl).2
      · rfl
    · have dot : ∀ c ∈ ('.' :: (['.'].intercalate names ++ rest)).head?, isNameChar c = false := by
        rintro c ⟨⟩
        rfl
      have more := intercalate_ne_nil last fun name hm => (hnames name hm).1
      rw [List.intercalate_cons_of_ne_nil last, List.append_assoc, List.append_assoc,
        List.singleton_append, takePath, takeWhile_name hname dot, List.drop_left,
        if_neg (by simpa using full)]
      simp only [ih last hnames (Nat.le_of_succ_le_succ hf)]
      rw [List.append_assoc, List.singleton_append]

/-! ## Splicing -/

/-- The text becomes another one when its symbols are replaced. -/
def Becomes (data : Value) (cs out : List Char) : Prop :=
  ∀ fuel, cs.length ≤ fuel → substituteFrom data fuel cs = .ok out

namespace Becomes

variable {data : Value} {cs out rest : List Char}

theorem nil : Becomes data [] [] := fun fuel _ => by cases fuel <;> rfl

theorem cons {c : Char} (hc : c ≠ '@') (h : Becomes data rest out) :
    Becomes data (c :: rest) (c :: out) := by
  intro fuel hf
  obtain ⟨fuel, rfl⟩ := Nat.exists_eq_add_one.2 (Nat.zero_lt_of_lt hf)
  rw [substituteFrom, if_neg (by simpa using hc), h fuel (Nat.le_of_succ_le_succ hf)]
  rfl

/-- Text without symbols stays as it is. -/
theorem plain (hc : ∀ c ∈ cs, c ≠ '@') (h : Becomes data rest out) :
    Becomes data (cs ++ rest) (cs ++ out) := by
  induction cs with
  | nil => exact h
  | cons c cs ih =>
    obtain ⟨hc, hcs⟩ := List.forall_mem_cons.1 hc
    exact (ih hcs).cons hc

theorem gap (hc : Blank.Gap cs) (h : Becomes data rest out) :
    Becomes data (cs ++ rest) (cs ++ out) := by
  refine h.plain ?_
  rintro c hm rfl
  exact absurd (hc _ hm) (by decide)

/-- A path that nothing goes on with is replaced by the text of its value. -/
theorem reference {names : List (List Char)} (some : names ≠ [])
    (h : ∀ name ∈ names, name ≠ [] ∧ ∀ c ∈ name, isNameChar c = true) (stop : Stops rest)
    {v : Value} (value : lookup data (String.ofList (['.'].intercalate names)) = .ok v)
    (hr : Becomes data rest out) :
    Becomes data ('@' :: (['.'].intercalate names ++ rest)) (v.splice.toList ++ out) := by
  intro fuel hf
  obtain ⟨fuel, rfl⟩ := Nat.exists_eq_add_one.2 (Nat.zero_lt_of_lt hf)
  have behind : rest.length ≤ fuel := by
    rw [List.length_cons, List.length_append] at hf
    omega
  have full : ∀ name ∈ names, name ≠ [] := fun name hm => (h name hm).1
  have enough : names.length ≤ (['.'].intercalate names ++ rest).length + 1 := by
    have := length_le_intercalate full
    rw [List.length_append]
    omega
  rw [substituteFrom, if_pos (beq_self_eq_true _), takePath_intercalate some h stop enough]
  split
  · next none => exact absurd (congrArg Prod.fst none) (intercalate_ne_nil some full)
  · next path rest' _ taken =>
    obtain ⟨rfl, rfl⟩ := Prod.mk.inj taken
    rw [value, bind_ok, hr fuel behind]
    rfl

end Becomes

/-- What becomes of a text is known however long it is. -/
theorem Becomes.substitute {data : Value} {cs out : List Char} (h : Becomes data cs out) :
    substitute data (String.ofList cs) = .ok (String.ofList out) := by
  rw [Symbols.substitute, String.toList_ofList, h _ (Nat.le_refl _)]
  rfl

theorem toList_path (names : List String) :
    (".".intercalate names).toList = ['.'].intercalate (names.map String.toList) :=
  String.toList_intercalate

/-- A path that leads to an integer has it as its value. -/
theorem lookup_of_resolves {data : Value} {names : List String} {n : Int}
    (h : Resolves data names n) (some : names ≠ [])
    (plain : ∀ name ∈ names, '.' ∉ name.toList) :
    lookup data (".".intercalate names) = .ok (.int n) := by
  have keys : (splitDots (".".intercalate names).toList).map String.ofList = names := by
    rw [toList_path, splitDots_intercalate (by simpa using some) (List.forall_mem_map.2 plain),
      List.map_map]
    simp
  obtain ⟨v, walked, value⟩ := walk_of_resolves h (".".intercalate names)
  rw [lookup, keys, walked, bind_ok, value]
  rfl

end Symbols

namespace Symbolic

open Symbols

variable {ρ : List String → Int} {data : Value} {e : Symbolic}

theorem isBlank_of_isNameChar {c : Char} (h : isNameChar c = true) : Blank.isBlank c = false := by
  simp only [isNameChar, Bool.or_eq_true, beq_iff_eq] at h
  rcases h with (h | rfl) | rfl
  · exact Atom.isBlank_of_isAlphanum h
  · rfl
  · rfl

theorem stops_of_gap {gap cs : List Char} (h : Blank.Gap gap) (some : gap ≠ []) :
    Stops (gap ++ cs) := by
  obtain ⟨c, gap, rfl⟩ := List.exists_cons_of_ne_nil some
  rintro d ⟨⟩
  have blank := h c List.mem_cons_self
  refine ⟨?_, by rintro rfl; cases blank⟩
  rw [← Bool.not_eq_true]
  intro name
  rw [isBlank_of_isNameChar name] at blank
  cases blank

theorem IsName.not_mem {name : String} (h : IsName name) {c : Char}
    (hc : Symbols.isNameChar c = false) : c ∉ name.toList := by
  intro hm
  rw [h.2 c hm] at hc
  cases hc

/-- **An expression becomes the expression with its values**, where nothing behind it goes on with
its last path. -/
theorem becomes_written (proper : e.Proper)
    (resolves : ∀ names ∈ e.references, Resolves data names (ρ names)) {rest out : List Char}
    (stop : Stops rest) (h : Becomes data rest out) :
    Becomes data (e.written ++ rest) (e.spliced ρ ++ out) := by
  have noSymbol (s : Arithmetic.Sign) : s.char ≠ '@' := by cases s <;> decide
  -- For what stands behind the expression, since a path ends where the text behind it says so.
  induction e generalizing rest out with
  | literal ds =>
    refine h.plain ?_
    rintro c hc rfl
    exact absurd (proper.2 _ hc) (by decide)
  | reference names =>
    obtain ⟨some, hnames⟩ := proper
    have dots : ∀ name ∈ names, '.' ∉ name.toList := fun name hm =>
      (hnames name hm).not_mem rfl
    have value := lookup_of_resolves (resolves names List.mem_cons_self) some dots
    have path := toList_path names
    have text : (reference names).written ++ rest
        = '@' :: (['.'].intercalate (names.map String.toList) ++ rest) := by
      rw [← path]
      rfl
    rw [text]
    refine Becomes.reference (by simpa using some) ?_ stop ?_ h
    · refine List.forall_mem_map.2 fun name hm => ?_
      obtain ⟨full, chars⟩ := hnames name hm
      exact ⟨by simpa using full, chars⟩
    · rwa [← path, String.ofList_toList]
  | group before e after ih =>
    obtain ⟨hb, he, ha⟩ := proper
    have closing : Stops (after ++ ')' :: rest) := by
      by_cases some : after = []
      · subst some
        rintro c ⟨⟩
        exact ⟨rfl, by decide⟩
      · exact stops_of_gap ha some
    have inner := ih he resolves closing ((h.cons (by decide)).gap ha)
    simpa [written, spliced, text] using (inner.gap hb).cons (by decide : '(' ≠ '@')
  | signed s gap e ih =>
    obtain ⟨-, hg, he, -⟩ := proper
    simpa [written, spliced, text] using ((ih he resolves stop h).gap hg).cons (noSymbol s)
  | binary l before s after r ihl ihr =>
    obtain ⟨⟨hl, -⟩, ⟨hb, some⟩, ⟨ha, -⟩, hr, -⟩ := proper
    obtain ⟨left, right⟩ := List.forall_mem_append.1 resolves
    have behind := (((ihr hr right stop h).gap ha).cons (noSymbol s)).gap hb
    simpa [written, spliced, text] using ihl hl left (stops_of_gap hb some) behind

/-- **The symbols of an expression are replaced by their values**, with white space around it or
without. -/
theorem substitute_written (proper : e.Proper)
    (resolves : ∀ names ∈ e.references, Resolves data names (ρ names)) {before after : List Char}
    (hb : Blank.Gap before) (ha : Blank.Gap after) :
    substitute data (String.ofList (before ++ (e.written ++ after)))
      = .ok (String.ofList (before ++ (e.spliced ρ ++ after))) := by
  have stop : Stops after := by
    cases after with
    | nil => simp [Stops]
    | cons c after =>
      have := @stops_of_gap _ [] ha (List.cons_ne_nil _ _)
      rwa [List.append_nil] at this
  have behind : Becomes data after after := by simpa using Becomes.nil.gap ha
  exact ((becomes_written proper resolves stop behind).gap hb).substitute

end Symbolic

end DiceFormula
