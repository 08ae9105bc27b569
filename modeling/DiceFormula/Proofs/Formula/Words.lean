import DiceFormula.Proofs.Formula.DiceText

/-!
# Numbers and dice as they are written

A number or some dice of a formula, written with their flavor, are read as the same number or dice
again (`Leaf.classify_number`, `Leaf.classify_diceTerm`). Dice are written in one way for all their
spellings: with their number and in small letters, and without what stands before the first letter
of the modifiers, which is skipped when they are cut (`Modifier.split_join_split`).
-/

namespace DiceFormula

open Arithmetic

theorem takeWhile_append_of_head? {α : Type} {p : α → Bool} {as bs : List α}
    (ha : ∀ a ∈ as, p a = true) (hb : ∀ b ∈ bs.head?, p b = false) :
    (as ++ bs).takeWhile p = as := by
  rw [List.takeWhile_append_of_pos ha]
  cases bs with
  | nil => simp
  | cons b bs => simp [hb b rfl]

theorem dropWhile_append_of_head? {α : Type} {p : α → Bool} {as bs : List α}
    (ha : ∀ a ∈ as, p a = true) (hb : ∀ b ∈ bs.head?, p b = false) :
    (as ++ bs).dropWhile p = bs := by
  rw [List.dropWhile_append_of_pos ha]
  cases bs with
  | nil => simp
  | cons b bs => simp [hb b rfl]

variable {config : Config}

/-! ## Modifiers -/

namespace Modifier

/-- Every character belongs to a modifier once a letter has begun one. -/
def IsRun (cs : List Char) : Prop := ∀ c ∈ cs, isLetter c = false → isSuffix c = true

theorem splitFrom_of_lt {fuel fuel' : Nat} {cs : List Char} (h : cs.length < fuel)
    (h' : cs.length < fuel') : splitFrom fuel cs = splitFrom fuel' cs := by
  induction fuel generalizing fuel' cs with
  | zero => exact absurd h (Nat.not_lt_zero _)
  | succ fuel ih =>
    obtain ⟨fuel', rfl⟩ := Nat.exists_eq_add_one.2 (Nat.zero_lt_of_lt h')
    unfold splitFrom
    dsimp only
    split
    · cases cs with
      | nil => rfl
      | cons c cs =>
        simp only [List.length_cons] at h h'
        exact ih (by omega) (by omega)
    · next word =>
      have pos : 0 < (cs.takeWhile isLetter).length := by
        rw [List.length_pos_iff]
        simpa using word
      refine congrArg _ (ih ?_ ?_) <;>
      · simp only [List.length_drop]
        have := (List.takeWhile_sublist isLetter (l := cs)).length_le
        omega

theorem splitFrom_cons {fuel : Nat} {c : Char} (h : isLetter c = false) (cs : List Char) :
    splitFrom (fuel + 1) (c :: cs) = splitFrom fuel cs := by
  simp [splitFrom, h]

/-- What stands before the first letter is skipped. -/
theorem splitFrom_dropWhile {fuel fuel' : Nat} {cs : List Char} (h : cs.length < fuel)
    (h' : cs.length < fuel') :
    splitFrom fuel (cs.dropWhile fun c => !isLetter c) = splitFrom fuel' cs := by
  induction cs generalizing fuel' with
  | nil => exact splitFrom_of_lt h h'
  | cons c cs ih =>
    cases hc : isLetter c with
    | true =>
      rw [List.dropWhile_cons_of_neg (by simp [hc])]
      exact splitFrom_of_lt h h'
    | false =>
      obtain ⟨fuel', rfl⟩ := Nat.exists_eq_add_one.2 (Nat.zero_lt_of_lt h')
      simp only [List.length_cons] at h h'
      rw [List.dropWhile_cons_of_pos (by simp [hc]), splitFrom_cons hc]
      exact ih (by omega) (by omega)

/-- A letter begins a modifier, which goes on until no suffix does. -/
theorem exists_splitFrom_cons {c : Char} (h : isLetter c = true) (cs : List Char) :
    ∃ word rest, c :: word ++ rest = c :: cs ∧ (∀ d ∈ rest.head?, isSuffix d = false)
      ∧ ∀ fuel, splitFrom (fuel + 1) (c :: cs) = (c :: word) :: splitFrom fuel rest := by
  have letters : (c :: cs).takeWhile isLetter = c :: cs.takeWhile isLetter :=
    List.takeWhile_cons_of_pos h
  have after : (c :: cs).drop (c :: cs.takeWhile isLetter).length
      = (c :: cs).dropWhile isLetter := by
    rw [← letters, drop_length_takeWhile]
  generalize hds : (c :: cs).dropWhile isLetter = ds at after
  refine ⟨cs.takeWhile isLetter ++ ds.takeWhile isSuffix, ds.dropWhile isSuffix, ?_, ?_, ?_⟩
  · rw [← List.cons_append, List.append_assoc, List.takeWhile_append_dropWhile, ← hds, ← letters,
      List.takeWhile_append_dropWhile]
  · intro d hd
    obtain ⟨rest, hrest⟩ := List.head?_eq_some_iff.1 hd
    exact not_of_dropWhile hrest
  · intro fuel
    simp only [splitFrom, letters, after, drop_length_takeWhile, List.isEmpty_cons,
      Bool.false_eq_true, if_false, List.cons_append]

/-- The modifiers of a run are the run from its first letter on. -/
theorem flatten_splitFrom {fuel : Nat} {cs : List Char} (hl : cs.length < fuel) (h : IsRun cs) :
    (splitFrom fuel cs).flatten = cs.dropWhile fun c => !isLetter c := by
  induction fuel generalizing cs with
  | zero => exact absurd hl (Nat.not_lt_zero _)
  | succ fuel ih =>
    cases cs with
    | nil => rfl
    | cons c cs =>
      simp only [List.length_cons] at hl
      cases hc : isLetter c with
      | false =>
        rw [splitFrom_cons hc, List.dropWhile_cons_of_pos (by simp [hc])]
        exact ih (by omega) fun d hd => h d (List.mem_cons_of_mem c hd)
      | true =>
        obtain ⟨word, rest, text, ends, step⟩ := exists_splitFrom_cons hc cs
        rw [step, List.flatten_cons, List.dropWhile_cons_of_neg (by simp [hc]), ← text]
        rw [← text] at h
        have shorter := congrArg List.length text
        simp only [List.length_append, List.length_cons] at shorter
        rw [ih (by omega) fun d hd => h d (List.mem_append_right _ hd)]
        -- where the suffix ends, no character but a letter can follow
        cases rest with
        | nil => rfl
        | cons d rest =>
          have letter : isLetter d = true := by
            by_contra hd
            have := h d (List.mem_append_right _ List.mem_cons_self) (by simpa using hd)
            rw [ends d rfl] at this
            cases this
          rw [List.dropWhile_cons_of_neg (by simp [letter])]

/-- Cutting a run once more does not change its modifiers. -/
theorem split_join_split {text : String} (h : IsRun text.toList) :
    (String.join (split text)).toList = text.toList.dropWhile (fun c => !isLetter c)
      ∧ split (String.join (split text)) = split text := by
  have toList : (String.join (split text)).toList
      = text.toList.dropWhile fun c => !isLetter c := by
    rw [← flatten_splitFrom (Nat.lt_succ_self _) h]
    simp [split, String.toList_join, List.map_map, Function.comp_def, List.flatMap_def]
  refine ⟨toList, ?_⟩
  unfold split
  dsimp only
  have shorter : (text.toList.dropWhile fun c => !isLetter c).length ≤ text.toList.length :=
    (List.dropWhile_sublist _).length_le
  rw [show String.join ((splitFrom (text.toList.length + 1) text.toList).map String.ofList)
    = String.join (split text) from rfl, toList]
  rw [splitFrom_of_lt (Nat.lt_succ_self _) (Nat.lt_succ_of_le shorter),
    splitFrom_dropWhile (Nat.lt_succ_self _) (Nat.lt_succ_self _)]

end Modifier

/-- Modifiers are written from the first letter on. -/
theorem Hand.toList_written_splitValues {cs : List Char} (h : Modifier.IsRun cs) :
    (Hand.written { modifiers := Modifier.splitValues (String.ofList cs) }).toList
      = cs.dropWhile fun c => !Modifier.isLetter c := by
  have run : Modifier.IsRun (String.ofList cs).toList := by rwa [String.toList_ofList]
  have written := (Modifier.split_join_split run).1
  rw [String.toList_ofList] at written
  rw [← written]
  simp [Hand.written, Modifier.splitValues, List.map_map, Function.comp_def, Value.text]

/-- What stands before the first letter makes no modifier. -/
theorem Modifier.splitValues_dropWhile {cs : List Char} (h : IsRun cs) :
    splitValues (String.ofList (cs.dropWhile fun c => !isLetter c))
      = splitValues (String.ofList cs) := by
  have run : IsRun (String.ofList cs).toList := by rwa [String.toList_ofList]
  obtain ⟨joined, same⟩ := split_join_split run
  rw [String.toList_ofList] at joined
  have text := String.toList_inj.1 (joined.trans String.toList_ofList.symm)
  rw [splitValues, ← text, same, splitValues]

namespace Leaf

/-! ## Flavors -/

/-- A flavor as it is written; without a flavor nothing is. -/
def flavorChars : Option (List Char) → List Char
  | some f => '[' :: f ++ [']']
  | none => []

/-- The flavor says something, and the bracket that ends it is the first one that closes. -/
def IsFlavor (flavor : Option (List Char)) : Prop := ∀ f ∈ flavor, f ≠ [] ∧ ']' ∉ f

theorem toList_flavorText {flavor : Option (List Char)} (h : IsFlavor flavor) :
    (Term.flavorText (Options.ofFlavor flavor).flavor).toList = flavorChars flavor := by
  cases flavor with
  | none => rfl
  | some f =>
    obtain ⟨full, -⟩ := h f rfl
    have truthy : String.ofList f ≠ "" := by simpa using full
    simp [Options.ofFlavor, full, Options.flavor, Value.orElse, Value.truthy, Term.flavorText,
      truthy, Value.filled, Value.filling?, Value.text, flavorChars]

theorem takeFlavor_append {f : List Char} (h : IsFlavor (some f)) (cs : List Char) :
    takeFlavor (flavorChars (some f) ++ cs) = (some f, cs) := by
  obtain ⟨full, closed⟩ := h f rfl
  obtain ⟨c, f, rfl⟩ := List.exists_cons_of_ne_nil full
  have cut := Atom.cutFlavor?_of_not_mem closed cs
  rw [flavorChars, List.append_assoc, List.singleton_append, List.cons_append, takeFlavor, cut]

theorem takeFlavor_flavorChars {flavor : Option (List Char)} (h : IsFlavor flavor) :
    takeFlavor (flavorChars flavor) = (flavor, []) := by
  cases flavor with
  | none => rfl
  | some f =>
    have taken := takeFlavor_append h []
    rwa [List.append_nil] at taken

theorem of_takeFlavor {cs rest : List Char} {flavor : Option (List Char)}
    (h : takeFlavor cs = (flavor, rest)) :
    IsFlavor flavor ∧ cs = flavorChars flavor ++ rest := by
  have nothing : IsFlavor none := fun f hf => by cases hf
  unfold takeFlavor at h
  split at h
  · next r =>
    split at h
    · next c body rest' hcut =>
      obtain ⟨rfl, rfl⟩ := Prod.mk.inj h
      refine ⟨?_, ?_⟩
      · rintro f ⟨⟩
        exact ⟨List.cons_ne_nil _ _, Atom.not_mem_of_cutFlavor? hcut⟩
      · rw [Atom.eq_of_cutFlavor? hcut]
        simp [flavorChars]
    · obtain ⟨rfl, rfl⟩ := Prod.mk.inj h
      exact ⟨nothing, rfl⟩
  · obtain ⟨rfl, rfl⟩ := Prod.mk.inj h
    exact ⟨nothing, rfl⟩

/-- A flavor begins with a square bracket. -/
theorem head_flavorChars {flavor : Option (List Char)} {c : Char}
    (h : c ∈ (flavorChars flavor).head?) : c = '[' := by
  cases flavor with
  | none => cases h
  | some f => exact (Option.some.inj h).symm

theorem noDigit_flavorChars (flavor : Option (List Char)) : NoDigit (flavorChars flavor) := by
  intro c hc
  rw [head_flavorChars hc]
  rfl

/-! ## Numbers -/

theorem classify_eq_leaf {text : String} {c : Char} {cs : List Char} {adjacent : Bool}
    (h : text.toList = c :: cs) (hc : Sign.ofChar? c = none) :
    classify text config adjacent = classify.leaf text config adjacent text.toList := by
  unfold classify
  dsimp only
  split
  · next d hd =>
    rw [hd] at h
    rw [(List.cons.inj h).1, hc]
  · next d hd =>
    rw [hd] at h
    rw [(List.cons.inj h).1, hc]
    rfl
  · rfl

/-- Digits and a flavor are a number. -/
theorem readNumeral?_digits {ds : List Char} {flavor : Option (List Char)} (h : IsInt ds)
    (hf : IsFlavor flavor) :
    readNumeral? (ds ++ flavorChars flavor) = some (.int (digitsValue ds), flavor) := by
  have whole := takeWhile_digits h.2 (noDigit_flavorChars flavor)
  have full : ds.isEmpty = false := by simpa using h.1
  have all : ds.all Char.isDigit = true := List.all_eq_true.2 h.2
  have noPoint : ∀ r, flavorChars flavor ≠ '.' :: r := by
    intro r e
    exact absurd (head_flavorChars (by rw [e]; rfl)) (by decide)
  unfold readNumeral?
  dsimp only
  rw [whole, List.drop_left]
  split
  · next r e => exact absurd e (noPoint r)
  · simp only [takeFlavor_flavorChars hf, full, isEnd, Bool.false_or]
    simp [Token.numeralValue, all]

/-- **A number is read again as it is written.** -/
theorem classify_number {n : Nat} {flavor : Option (List Char)} (hf : IsFlavor flavor) :
    classify (String.ofList (Nat.toDigits 10 n ++ flavorChars flavor)) config false
      = .ok (.make (.number (.int n)) (Options.ofFlavor flavor) config) := by
  have digits := isInt_toDigits n
  have value : digitsValue (Nat.toDigits 10 n) = n := Nat.ofDigitChars_ten_toDigits
  obtain ⟨c, cs, hcs⟩ := List.exists_cons_of_ne_nil digits.1
  have hc : c.isDigit = true := digits.2 c (by rw [hcs]; exact List.mem_cons_self)
  rw [classify_eq_leaf (by rw [String.toList_ofList, hcs]; rfl) (Sign.ofChar?_of_isDigit hc),
    classify.leaf, String.toList_ofList, readNumeral?_digits digits hf, value]
  rfl

/-- The flavor of a leaf is a stretch of its text, after something without square brackets. -/
def Flavored (cs : List Char) (flavor : Option (List Char)) : Prop :=
  IsFlavor flavor ∧ ∃ before rest, cs = before ++ (flavorChars flavor ++ rest) ∧ '[' ∉ before

/-- A numeral ends before its flavor. -/
theorem of_readNumeral? {cs : List Char} {n : Number} {flavor : Option (List Char)}
    (h : readNumeral? cs = some (n, flavor)) :
    (∃ text, n = Token.numeralValue text) ∧ Flavored cs flavor := by
  revert h
  fun_cases readNumeral? cs with
  | case1 =>
    intro h
    cases h
  | case2 whole rest text after number flavor' rest' taken =>
    intro h
    obtain ⟨rfl, rfl⟩ := Prod.mk.inj (Option.some.inj h)
    obtain ⟨isFlavor, hafter⟩ := of_takeFlavor taken
    have plain (cs : List Char) : '[' ∉ cs.takeWhile Char.isDigit := fun hm =>
      absurd (List.mem_takeWhile_imp hm) (by decide)
    have hcs : cs = whole ++ rest := by
      rw [show rest = cs.dropWhile Char.isDigit from drop_length_takeWhile _ cs]
      exact List.takeWhile_append_dropWhile.symm
    clear_value rest
    have parts : cs = text ++ after ∧ '[' ∉ text := by
      split at number
      · next r =>
        dsimp only at number
        split at number
        · obtain ⟨rfl, rfl⟩ := Prod.mk.inj number
          exact ⟨hcs, plain cs⟩
        · obtain ⟨rfl, rfl⟩ := Prod.mk.inj number
          refine ⟨?_, ?_⟩
          · rw [hcs, drop_length_takeWhile, List.append_assoc, List.cons_append,
              List.takeWhile_append_dropWhile]
          · simp only [List.mem_append, List.mem_cons, not_or]
            exact ⟨plain cs, by decide, plain r⟩
      · obtain ⟨rfl, rfl⟩ := Prod.mk.inj number
        exact ⟨hcs, plain cs⟩
    exact ⟨⟨text, rfl⟩, isFlavor, text, rest', by rw [← hafter, ← parts.1], parts.2⟩

/-- A numeral that is an integer is no negative one. -/
theorem exists_natCast_of_numeralValue {text : List Char} {n : Int}
    (h : Number.int n = Token.numeralValue text) : ∃ k : Nat, n = k := by
  unfold Token.numeralValue at h
  split at h
  · exact ⟨_, Number.int.inj h⟩
  · cases h

/-! ## Dice -/

end Leaf

/-- The letter that a kind of dice is registered under. -/
def DiceKind.letter : DiceKind → String
  | die => "d"
  | coin => "c"
  | fate => "f"

/-- Kinds of dice are registered under their own letters. -/
def Config.OwnLetters (config : Config) : Prop :=
  ∀ key kind, config.kinds.lookup key = some (.dice kind) → key = kind.letter

theorem Config.ownLetters_default : Config.default.OwnLetters := by
  intro key kind h
  obtain ⟨front, back, hkinds, -⟩ := List.lookup_eq_some_iff.1 h
  have mem : (key, TermClass.dice kind) ∈ Config.defaultKinds := by
    rw [show Config.defaultKinds = _ from hkinds]
    simp
  simp only [Config.defaultKinds, List.mem_cons, Prod.mk.injEq, TermClass.dice.injEq,
    List.not_mem_nil, or_false] at mem
  rcases mem with ⟨rfl, rfl⟩ | ⟨rfl, rfl⟩ | ⟨rfl, rfl⟩ <;> rfl

namespace Leaf

/-- Some dice that show the given faces are written with this name, and read by it. -/
structure Names (config : Config) (kind : DiceKind) (faces : Value) (name : List Char) : Prop where
  known : config.denomination? (String.ofList name) = some (.dice kind)
  rolls : config.numericDie = .dice kind → Digit.readNat? name ≠ none
  shown : facesOf kind (Digit.readNat? name) = faces
  written : ∀ number hand, (Dice.mk kind number faces hand).denomination = String.ofList name
  taken : ∀ more, NoDigit more → takeDenomination? (name ++ more) = some (name, more)
  alphanum : ∀ c ∈ name, c.isAlphanum = true

theorem Names.ofDice {kind : DiceKind} {faces : Value} {t : DiceText}
    (h : Names config kind faces t.denomination) :
    ofDice t config = .ok (diceTerm kind t config) := by
  unfold Leaf.ofDice
  dsimp only
  rw [h.known]
  dsimp only
  rw [if_neg]
  · rfl
  · intro unknown
    obtain ⟨none, numeric⟩ := Bool.and_eq_true_iff.1 unknown
    exact h.rolls (beq_iff_eq.1 numeric).symm (Option.isNone_iff_eq_none.1 none)

theorem readNat?_of_isAlpha {c : Char} (h : c.isAlpha = true) : Digit.readNat? [c] = none := by
  have notDigit : c.isDigit = false := by
    by_contra digit
    rw [Arithmetic.not_isAlpha_of_isDigit (by simpa using digit)] at h
    cases h
  have ascii : c.toNat < 128 := by
    have := Arithmetic.toNat_of_isAlpha h
    omega
  simp [Digit.readNat?, Digit.readFrom?, Digit.value?, notDigit, ascii]

/-- Numeric dice are written with the number of their faces. -/
theorem names_digits {n : Nat} (h : config.kinds.lookup "d" = some (.dice .die)) :
    Names config .die (.int n) (Nat.toDigits 10 n) := by
  have digits := isInt_toDigits n
  have value : Digit.readNat? (Nat.toDigits 10 n) = some n := by
    rw [readNat?_of_isInt digits]
    exact congrArg some Nat.ofDigitChars_ten_toDigits
  refine ⟨?_, ?_, by rw [value]; rfl, ?_, ?_, ?_⟩
  · rw [denomination?_of_isInt digits, h]
  · rw [value]
    exact fun _ => Option.some_ne_none n
  · exact fun _ _ => String.toList_inj.1 ((intText_eq n).trans String.toList_ofList.symm)
  · intro more hmore
    obtain ⟨d, ds, hds⟩ := List.exists_cons_of_ne_nil digits.1
    have hd : d.isDigit = true := digits.2 d (by rw [hds]; exact List.mem_cons_self)
    have taken := takeDenomination?_of_isDigit hd (ds ++ more)
    rwa [← List.cons_append, ← hds, takeWhile_digits digits.2 hmore,
      dropWhile_digits digits.2 hmore] at taken
  · intro d hd
    rw [Char.isAlphanum, digits.2 d hd, Bool.or_true]

/-- Other dice are written with their letter. -/
theorem names_letter (own : config.OwnLetters) {kind : DiceKind} (other : kind ≠ .die)
    (h : config.kinds.lookup kind.letter = some (.dice kind)) (named : Option Nat) :
    Names config kind (facesOf kind named) kind.letter.toList := by
  have notNumeric : config.numericDie ≠ .dice kind := by
    intro numeric
    unfold Config.numericDie at numeric
    cases hd : config.kinds.lookup "d" with
    | none =>
      rw [hd] at numeric
      exact other (TermClass.dice.inj numeric).symm
    | some c =>
      rw [hd] at numeric
      have key := own _ _ (hd.trans (congrArg some numeric))
      cases kind with
      | die => exact other rfl
      | coin | fate => exact absurd key (by decide)
  cases kind with
  | die => exact absurd rfl other
  | coin | fate =>
    exact ⟨h, fun numeric => absurd numeric notNumeric, rfl, fun _ _ => rfl, fun _ _ => rfl,
      List.forall_mem_singleton.2 rfl⟩

/-- **Dice are named by their own letter or by their faces**, whatever they were named by. -/
theorem exists_names (own : config.OwnLetters) {kind : DiceKind} {cs name after : List Char}
    (taken : takeDenomination? cs = some (name, after))
    (known : config.denomination? (String.ofList name) = some (.dice kind))
    (rolls : config.numericDie = .dice kind → Digit.readNat? name ≠ none) :
    ∃ name', Names config kind (facesOf kind (Digit.readNat? name)) name' := by
  have found : config.kinds.lookup kind.letter = some (.dice kind) := by
    unfold Config.denomination? at known
    split at known <;> rwa [← own _ _ known]
  obtain ⟨c, cs, rfl⟩ : ∃ c cs', cs = c :: cs' := by
    cases cs with
    | nil => cases taken
    | cons c cs => exact ⟨c, cs, rfl⟩
  by_cases digit : c.isDigit = true
  · -- digits name numeric dice, and are written without leading zeros
    rw [takeDenomination?_of_isDigit digit] at taken
    obtain ⟨rfl, -⟩ := Prod.mk.inj (Option.some.inj taken)
    have int := isInt_takeWhile digit cs
    rw [denomination?_of_isInt int] at known
    cases kind with
    | die =>
      rw [readNat?_of_isInt int]
      exact ⟨_, names_digits known⟩
    | coin | fate => exact absurd (own _ _ known) (by decide)
  · by_cases letter : c.isAlpha = true
    · rw [takeDenomination?_of_isAlpha letter] at taken
      obtain ⟨rfl, -⟩ := Prod.mk.inj (Option.some.inj taken)
      refine ⟨_, names_letter own ?_ found _⟩
      rintro rfl
      -- a letter cannot name numeric dice, which have a number of faces
      have numeric : config.numericDie = .dice .die := by
        rw [Config.numericDie, show config.kinds.lookup "d" = _ from found]
        rfl
      exact rolls numeric (readNat?_of_isAlpha letter)
    · simp [takeDenomination?, digit, letter] at taken

/-- The modifiers of some dice are a run. -/
theorem Spells.isRun {cs tail after rest : List Char} {t : DiceText} {d : Char}
    (h : Spells cs t d tail after rest) (solid : ∀ c ∈ t.modifiers, Blank.isBlank c = false) :
    Modifier.IsRun t.modifiers := by
  intro c hc notLetter
  have blank := solid c hc
  rw [h.modifiers] at hc
  have modifier := List.mem_takeWhile_imp hc
  simp only [isModifierChar, Bool.not_eq_true', Bool.or_eq_false_iff] at modifier
  simp only [Modifier.isSuffix, Bool.not_eq_true', Bool.or_eq_false_iff]
  tauto

/-- Dice are their digits, a `d`, their denomination, their modifiers and their flavor. -/
theorem Spells.text {cs tail after rest : List Char} {t : DiceText} {d : Char}
    (h : Spells cs t d tail after rest) :
    cs = cs.takeWhile Char.isDigit ++ d :: (t.denomination ++ t.modifiers)
      ++ (flavorChars t.flavor ++ rest) := by
  obtain ⟨hname, -⟩ := eq_append_of_takeDenomination? h.name
  obtain ⟨-, hflavor⟩ := of_takeFlavor h.flavor
  have text : cs = cs.takeWhile Char.isDigit ++ d :: tail := by
    rw [← h.head, List.takeWhile_append_dropWhile]
  rw [List.append_assoc, List.cons_append, List.append_assoc, ← hflavor, h.modifiers,
    List.takeWhile_append_dropWhile, ← hname, ← text]

theorem Spells.loose {cs tail after rest : List Char} {t : DiceText} {d : Char}
    (h : Spells cs t d tail after rest) :
    '[' ∉ cs.takeWhile Char.isDigit ++ d :: (t.denomination ++ t.modifiers) := by
  obtain ⟨-, alphanum⟩ := eq_append_of_takeDenomination? h.name
  intro hm
  rcases List.mem_append.1 hm with hm | hm
  · exact absurd (List.mem_takeWhile_imp hm) (by decide)
  rcases List.mem_cons.1 hm with rfl | hm
  · exact absurd h.letter (by decide)
  rcases List.mem_append.1 hm with hm | hm
  · exact absurd (alphanum _ hm) (by decide)
  · rw [h.modifiers] at hm
    exact absurd (List.mem_takeWhile_imp hm) (by decide)

/-- The flavor of some dice follows their modifiers, and no square bracket stands before it. -/
theorem Spells.flavored {cs tail after rest : List Char} {t : DiceText} {d : Char}
    (h : Spells cs t d tail after rest) :
    ∃ front, cs = front ++ (flavorChars t.flavor ++ rest) ∧ '[' ∉ front ∧ t.modifiers ⊆ front :=
  ⟨_, h.text, h.loose, fun _ hc =>
    List.mem_append_right _ (List.mem_cons_of_mem d (List.mem_append_right _ hc))⟩

theorem takeNumber_digits {ds more : List Char} (h : IsInt ds) (hm : NoDigit more) :
    (Modifier.takeNumber (ds ++ more)).1 = some (digitsValue ds) := by
  have full : ds.isEmpty = false := by simpa using h.1
  simp [Modifier.takeNumber, takeWhile_digits h.2 hm, full, digitsValue]

/-- The modifiers of some dice from their first letter on, and a flavor, go on with no digit. -/
theorem noDigit_modifiers (ms : List Char) (flavor : Option (List Char)) :
    NoDigit (ms.dropWhile (fun c => !Modifier.isLetter c) ++ flavorChars flavor) := by
  cases hms : ms.dropWhile fun c => !Modifier.isLetter c with
  | nil => exact noDigit_flavorChars _
  | cons c ms =>
    have letter : Modifier.isLetter c = true := by simpa using not_of_dropWhile hms
    refine .cons ?_
    by_contra digit
    rw [Modifier.isLetter, not_isAlpha_of_isDigit (by simpa using digit)] at letter
    cases letter

/-- Dice that are put together of their parts are spelled with these parts. -/
theorem spells_parts {n : Nat} {name ms cs : List Char} {flavor : Option (List Char)}
    (taken : ∀ more, NoDigit more → takeDenomination? (name ++ more) = some (name, more))
    (noDigit : NoDigit (ms ++ flavorChars flavor)) (modifiers : ∀ c ∈ ms, isModifierChar c = true)
    (isFlavor : IsFlavor flavor)
    (text : cs = Nat.toDigits 10 n ++ 'd' :: (name ++ (ms ++ flavorChars flavor))) :
    Spells cs { number := some n, denomination := name, modifiers := ms, flavor, whole := cs } 'd'
      (name ++ (ms ++ flavorChars flavor)) (ms ++ flavorChars flavor) [] := by
  have digits := isInt_toDigits n
  have value : digitsValue (Nat.toDigits 10 n) = n := Nat.ofDigitChars_ten_toDigits
  have ends : ∀ c ∈ (flavorChars flavor).head?, isModifierChar c = false := by
    intro c hc
    rw [head_flavorChars hc]
    rfl
  refine ⟨?_, .inl rfl, taken _ noDigit, ?_, ?_, rfl, ?_, by simp⟩
  · rw [text, dropWhile_digits digits.2 (.cons rfl)]
  · exact (takeWhile_append_of_head? modifiers ends).symm
  · rw [dropWhile_append_of_head? modifiers ends, takeFlavor_flavorChars isFlavor]
  · rw [text, takeNumber_digits digits (.cons rfl), value]

/-- Dice are written with their number, a `d`, their name, their modifiers from the first letter on,
and their flavor. -/
theorem formulaText_diceTerm {kind : DiceKind} {t : DiceText} {name : List Char}
    (names : Names config kind (facesOf kind (Digit.readNat? t.denomination)) name)
    (run : Modifier.IsRun t.modifiers) (isFlavor : IsFlavor t.flavor) :
    (diceTerm kind t config).formulaText.toList = Nat.toDigits 10 (t.number.getD 1)
      ++ 'd' :: (name ++ (t.modifiers.dropWhile (fun c => !Modifier.isLetter c)
        ++ flavorChars t.flavor)) := by
  have number : (Value.int (t.number.getD 1)).text.toList = Nat.toDigits 10 (t.number.getD 1) :=
    intText_eq (t.number.getD 1)
  have written := Hand.toList_written_splitValues run
  have flavor := toList_flavorText isFlavor
  simp only [Term.formulaText, diceTerm, Term.make, Term.written, Dice.written, Term.flavor,
    Term.isOperator, Term.sign?, Option.isSome_none, Bool.false_eq_true, if_false,
    String.toList_append, number, names.written, written, flavor, String.toList_ofList]
  simp

/-- The parts of some dice as they are written: the number, a `d`, the denomination, modifiers and
flavor. -/
structure WrittenAs (u : Term) (t : DiceText) (number name ms : List Char) : Prop where
  text : u.formulaText.toList = number ++ 'd' :: (name ++ (ms ++ flavorChars t.flavor))
  number : IsInt number
  name : ∀ c ∈ name, c.isAlphanum = true
  modifiers : ms ⊆ t.modifiers

/-- **Dice are read again as they are written.** -/
theorem classify_diceTerm (own : config.OwnLetters) {kind : DiceKind}
    {cs tail after rest : List Char} {t : DiceText} {d : Char}
    (spells : Spells cs t d tail after rest)
    (known : config.denomination? (String.ofList t.denomination) = some (.dice kind))
    (rolls : config.numericDie = .dice kind → Digit.readNat? t.denomination ≠ none)
    (solid : ∀ c ∈ t.modifiers, Blank.isBlank c = false) :
    classify (diceTerm kind t config).formulaText config false = .ok (diceTerm kind t config)
      ∧ ∃ number name ms, WrittenAs (diceTerm kind t config) t number name ms := by
  obtain ⟨name, names⟩ := exists_names own spells.name known rolls
  have isFlavor := (of_takeFlavor spells.flavor).1
  have run := spells.isRun solid
  have text := formulaText_diceTerm names run isFlavor
  have shorter := (List.dropWhile_sublist (fun c => !Modifier.isLetter c) (l := t.modifiers)).subset
  have modifiers : ∀ c ∈ t.modifiers, isModifierChar c = true := by
    rw [spells.modifiers]
    exact fun c => List.mem_takeWhile_imp
  refine ⟨?_, _, _, _, text, isInt_toDigits _, names.alphanum, shorter⟩
  have again := spells_parts names.taken (noDigit_modifiers t.modifiers t.flavor)
    (fun c hc => modifiers c (shorter hc)) isFlavor text
  have same := Modifier.splitValues_dropWhile run
  rw [classify_of_readDice? again.readDice?, if_neg Bool.false_ne_true, Names.ofDice names]
  simp only [diceTerm, Option.getD_some, names.shown, same]

end Leaf

end DiceFormula
