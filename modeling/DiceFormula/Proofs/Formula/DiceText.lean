import DiceFormula.Proofs.Arithmetic.Flat
import DiceFormula.Proofs.Evaluation.Calm
import Mathlib.Data.List.TakeWhile

/-!
# Texts that are dice

How some dice are spelled is known part by part (`Leaf.Spells`), and whether a spelling makes dice
is a matter of its denomination (`Config.Rolls`). A text makes no dice whatever it is joined with,
unless it is digits or breaks off after the `d` (`Leaf.NeverDice`, `Leaf.Harmless`): a calm leaf is
harmless (`Leaf.harmless_of_calm`), and so is what harmless texts are joined to
(`Leaf.Harmless.append`).
-/

namespace DiceFormula

theorem drop_length_takeWhile {α : Type} (p : α → Bool) (as : List α) :
    as.drop (as.takeWhile p).length = as.dropWhile p := by
  have split : as.takeWhile p ++ as.dropWhile p = as := List.takeWhile_append_dropWhile
  have := @List.drop_left _ (as.takeWhile p) (as.dropWhile p)
  rwa [split] at this

theorem dropWhile_append_of_dropWhile {α : Type} {p : α → Bool} {as rest : List α} {a : α}
    (h : as.dropWhile p = a :: rest) (bs : List α) :
    (as ++ bs).dropWhile p = a :: rest ++ bs := by
  induction as with
  | nil => cases h
  | cons b as ih =>
    rw [List.dropWhile_cons] at h
    rw [List.cons_append, List.dropWhile_cons]
    split
    · next hb => exact ih (by rwa [if_pos hb] at h)
    · next hb => rw [← h, if_neg hb, List.cons_append]

theorem takeWhile_append_of_dropWhile {α : Type} {p : α → Bool} {as rest : List α} {a : α}
    (h : as.dropWhile p = a :: rest) (bs : List α) :
    (as ++ bs).takeWhile p = as.takeWhile p := by
  induction as with
  | nil => cases h
  | cons b as ih =>
    rw [List.dropWhile_cons] at h
    rw [List.cons_append, List.takeWhile_cons, List.takeWhile_cons]
    split
    · next hb => rw [ih (by rwa [if_pos hb] at h)]
    · rfl

theorem not_of_dropWhile {α : Type} {p : α → Bool} {as rest : List α} {a : α}
    (h : as.dropWhile p = a :: rest) : p a = false := by
  have := List.head?_dropWhile_not p as
  rw [h] at this
  simpa using this

namespace Leaf

/-- The parts of dice as they are written in the text `cs`: digits, a `d`, a denomination,
modifiers, and perhaps a flavor. -/
structure Spells (cs : List Char) (t : DiceText) (d : Char) (tail after rest : List Char) :
    Prop where
  head : cs.dropWhile Char.isDigit = d :: tail
  letter : d = 'd' ∨ d = 'D'
  name : takeDenomination? tail = some (t.denomination, after)
  modifiers : t.modifiers = after.takeWhile isModifierChar
  flavor : takeFlavor (after.dropWhile isModifierChar) = (t.flavor, rest)
  isEnd : isEnd rest = true
  number : t.number = (Modifier.takeNumber cs).1
  whole : t.whole = cs.take (cs.length - rest.length)

theorem snd_takeNumber (cs : List Char) : (Modifier.takeNumber cs).2 = cs.dropWhile Char.isDigit :=
  drop_length_takeWhile _ cs

theorem exists_of_readDice? {cs : List Char} {t : DiceText} (h : readDice? cs = some t) :
    ∃ d tail after rest, Spells cs t d tail after rest := by
  unfold readDice? at h
  dsimp only at h
  rw [snd_takeNumber] at h
  split at h
  · next d tail head =>
    split at h
    · next letter =>
      obtain ⟨⟨name, after⟩, hname, h⟩ := Option.bind_eq_some_iff.1 h
      dsimp only at h
      rw [drop_length_takeWhile] at h
      split at h
      · next isEnd =>
        obtain rfl := Option.some.inj h
        exact ⟨d, tail, after, _, head, by simpa using letter, hname, rfl, rfl, isEnd, rfl, rfl⟩
      · cases h
    · cases h
  · cases h

theorem Spells.readDice? {cs : List Char} {t : DiceText} {d : Char} {tail after rest : List Char}
    (h : Spells cs t d tail after rest) : readDice? cs = some t := by
  obtain ⟨head, letter, name, modifiers, flavor, isEnd, number, whole⟩ := h
  obtain ⟨n, denomination, ms, f, w⟩ := t
  dsimp only at name modifiers flavor number whole
  unfold Leaf.readDice?
  dsimp only
  rw [snd_takeNumber, head]
  dsimp only
  rw [if_pos (by simpa using letter), name, Option.bind_some]
  dsimp only
  rw [drop_length_takeWhile, flavor]
  dsimp only
  rw [if_pos isEnd, number, modifiers, whole]

theorem takeDenomination?_of_isDigit {c : Char} (h : c.isDigit = true) (cs : List Char) :
    takeDenomination? (c :: cs)
      = some ((c :: cs).takeWhile Char.isDigit, (c :: cs).dropWhile Char.isDigit) := by
  unfold takeDenomination?
  dsimp only
  rw [if_pos h, drop_length_takeWhile]

theorem takeDenomination?_of_isAlpha {c : Char} (h : c.isAlpha = true) (cs : List Char) :
    takeDenomination? (c :: cs) = some ([c], cs) := by
  unfold takeDenomination?
  dsimp only
  rw [if_neg, if_pos h]
  intro digit
  rw [Arithmetic.not_isAlpha_of_isDigit digit] at h
  cases h

end Leaf

/-! ## What makes dice -/

variable {config : Config}

namespace Leaf

theorem isInt_takeWhile {c : Char} (h : c.isDigit = true) (cs : List Char) :
    Arithmetic.IsInt ((c :: cs).takeWhile Char.isDigit) := by
  refine ⟨?_, fun _ => List.mem_takeWhile_imp⟩
  rw [List.takeWhile_cons_of_pos h]
  exact List.cons_ne_nil _ _

theorem readNat?_of_isInt {ds : List Char} (h : Arithmetic.IsInt ds) :
    Digit.readNat? ds = some (digitsValue ds) := by
  rw [Digit.readNat?, if_neg (by simpa using h.1), Arithmetic.readFrom?_of_isDigits h.2]
  rfl

theorem allDigits_of_isInt {ds : List Char} (h : Arithmetic.IsInt ds) :
    Digit.allDigits ds = true := by
  rw [Digit.allDigits, Bool.and_eq_true_iff, List.all_eq_true]
  refine ⟨by simpa using h.1, fun d hd => ?_⟩
  rw [Digit.isDigit, Arithmetic.Digit.value?_of_isDigit (h.2 d hd)]
  rfl

theorem denomination?_of_isInt {ds : List Char} (h : Arithmetic.IsInt ds) :
    config.denomination? (String.ofList ds) = config.kinds.lookup "d" := by
  rw [Config.denomination?, String.toList_ofList, if_pos (allDigits_of_isInt h)]

/-- The first character of a denomination settles whether it makes dice. -/
theorem rolls_congr {c : Char} {cs ds name name' after after' : List Char}
    (h : takeDenomination? (c :: cs) = some (name, after))
    (h' : takeDenomination? (c :: ds) = some (name', after')) (rolls : config.Rolls name) :
    config.Rolls name' := by
  by_cases digit : c.isDigit = true
  · rw [takeDenomination?_of_isDigit digit] at h h'
    obtain ⟨rfl, -⟩ := Prod.mk.inj (Option.some.inj h)
    obtain ⟨rfl, -⟩ := Prod.mk.inj (Option.some.inj h')
    obtain ⟨kind, hkind, -⟩ := rolls
    refine ⟨kind, ?_, fun _ => ?_⟩
    · rwa [denomination?_of_isInt (isInt_takeWhile digit _)] at hkind ⊢
    · rw [readNat?_of_isInt (isInt_takeWhile digit ds)]
      exact Option.some_ne_none _
  · by_cases letter : c.isAlpha = true
    · rw [takeDenomination?_of_isAlpha letter] at h h'
      simp only [Option.some.injEq, Prod.mk.injEq] at h h'
      rwa [← h'.1, h.1]
    · simp [takeDenomination?, digit, letter] at h

theorem rolls_of_ofDice {t : DiceText} {u : Term} (h : ofDice t config = .ok u)
    (dice : u.die? ≠ none) : config.Rolls t.denomination := by
  rcases cases_of_ofDice h with ⟨-, rfl⟩ | ⟨rolls, -⟩
  · exact absurd rfl dice
  · exact rolls

theorem exists_ofDice_of_rolls {t : DiceText} (h : config.Rolls t.denomination) :
    ∃ d l carried, ofDice t config = .ok ⟨.dice d, l, carried⟩ := by
  obtain ⟨kind, hkind, known⟩ := h
  unfold ofDice
  dsimp only
  rw [hkind]
  dsimp only
  rw [if_neg]
  · exact ⟨_, _, _, rfl⟩
  · intro hnone
    obtain ⟨none, numeric⟩ := Bool.and_eq_true_iff.1 hnone
    exact known (beq_iff_eq.1 numeric).symm (Option.isNone_iff_eq_none.1 none)

/-- The text makes no dice, whatever digits stand before it and whatever follows. -/
def NeverDice (config : Config) (cs : List Char) : Prop :=
  ∀ ds more t u, (∀ c ∈ ds, c.isDigit = true) → readDice? (ds ++ cs ++ more) = some t →
    ofDice t config = .ok u → u.die? = none

theorem dropWhile_around {cs rest : List Char} {d : Char}
    (h : cs.dropWhile Char.isDigit = d :: rest) {ds : List Char}
    (digits : ∀ c ∈ ds, c.isDigit = true) (more : List Char) :
    (ds ++ cs ++ more).dropWhile Char.isDigit = d :: (rest ++ more) := by
  rw [List.append_assoc, List.dropWhile_append_of_pos digits, dropWhile_append_of_dropWhile h]
  rfl

theorem neverDice_of_head {cs rest : List Char} {d : Char}
    (h : cs.dropWhile Char.isDigit = d :: rest) (letter : ¬(d = 'd' ∨ d = 'D')) :
    NeverDice config cs := by
  intro ds more t u digits ht
  obtain ⟨d', tail, after, rest', spells⟩ := exists_of_readDice? ht
  have head := spells.head
  rw [dropWhile_around h digits] at head
  rw [(List.cons.inj head).1] at letter
  exact absurd spells.letter letter

theorem neverDice_of_tail {cs rest : List Char} {d c : Char}
    (h : cs.dropWhile Char.isDigit = d :: c :: rest)
    (never : ∀ ds name after, takeDenomination? (c :: ds) = some (name, after) →
      ¬config.Rolls name) : NeverDice config cs := by
  intro ds more t u digits ht hu
  obtain ⟨d', tail, after, rest', spells⟩ := exists_of_readDice? ht
  have head := spells.head
  rw [dropWhile_around h digits] at head
  obtain ⟨rfl, rfl⟩ := List.cons.inj head
  by_contra dice
  exact never _ _ _ spells.name (rolls_of_ofDice hu dice)

theorem cutFlavor?_append {cs body rest : List Char}
    (h : Atom.cutFlavor? cs = some (body, rest)) (more : List Char) :
    Atom.cutFlavor? (cs ++ more) = some (body, rest ++ more) := by
  induction cs generalizing body with
  | nil => cases h
  | cons c cs ih =>
    rw [Atom.cutFlavor?] at h
    rw [List.cons_append, Atom.cutFlavor?]
    split at h
    · next hc =>
      obtain ⟨rfl, rfl⟩ := Prod.mk.inj (Option.some.inj h)
      rw [if_pos hc]
    · next hc =>
      obtain ⟨⟨b, r⟩, hb, h⟩ := Option.map_eq_some_iff.1 h
      obtain ⟨rfl, rfl⟩ := Prod.mk.inj h
      rw [if_neg hc, ih hb]
      rfl

theorem isEnd_append {cs : List Char} (h : isEnd cs = false) (more : List Char) :
    isEnd (cs ++ more) = false := by
  simp only [isEnd, Bool.or_eq_false_iff, beq_eq_false_iff_ne, ne_eq] at h ⊢
  refine ⟨fun e => h.1 (List.append_eq_nil_iff.1 e).1, fun e => ?_⟩
  rcases List.append_eq_singleton_iff.1 e with ⟨e, -⟩ | ⟨e, -⟩
  · exact h.1 e
  · exact h.2 e

theorem takeFlavor_of_ne {c : Char} (h : c ≠ '[') (cs : List Char) :
    takeFlavor (c :: cs) = (none, c :: cs) := by
  unfold takeFlavor
  split
  · next e => exact absurd (List.cons.inj e).1 h
  · rfl

/-- A text that goes on after its flavor, or where its flavor should be, goes on all the more before
another text. -/
theorem isEnd_takeFlavor_append {c : Char} {cs : List Char}
    (closed : c = '[' → Atom.cutFlavor? cs ≠ none)
    (h : isEnd (takeFlavor (c :: cs)).2 = false) (more : List Char) :
    isEnd (takeFlavor (c :: cs ++ more)).2 = false := by
  by_cases hc : c = '['
  · subst hc
    obtain ⟨⟨body, rest⟩, hbody⟩ := Option.ne_none_iff_exists'.1 (closed rfl)
    have hmore := cutFlavor?_append hbody more
    cases body with
    | nil =>
      simp only [takeFlavor, List.cons_append, hmore, hbody] at h ⊢
      exact isEnd_append h more
    | cons b body =>
      simp only [takeFlavor, List.cons_append, hmore, hbody] at h ⊢
      exact isEnd_append h more
  · rw [List.cons_append, takeFlavor_of_ne hc] at *
    exact isEnd_append h more

/-- A denomination that something else follows is not changed by what comes after that. -/
theorem takeDenomination?_append {c e : Char} {cs name after : List Char}
    (h : takeDenomination? (c :: cs) = some (name, e :: after)) (more : List Char) :
    takeDenomination? (c :: cs ++ more) = some (name, e :: after ++ more) := by
  rw [List.cons_append]
  by_cases digit : c.isDigit = true
  · rw [takeDenomination?_of_isDigit digit] at h ⊢
    obtain ⟨rfl, hafter⟩ := Prod.mk.inj (Option.some.inj h)
    rw [← List.cons_append, takeWhile_append_of_dropWhile hafter,
      dropWhile_append_of_dropWhile hafter]
  · by_cases letter : c.isAlpha = true
    · rw [takeDenomination?_of_isAlpha letter] at h ⊢
      obtain ⟨rfl, rfl⟩ := Prod.mk.inj (Option.some.inj h)
      rfl
    · simp [takeDenomination?, digit, letter] at h

/-- Whether there is a denomination at the front depends on the first character only. -/
theorem takeDenomination?_eq_none {c : Char} {cs : List Char}
    (h : takeDenomination? (c :: cs) = none) (ds : List Char) :
    takeDenomination? (c :: ds) = none := by
  by_cases digit : c.isDigit = true
  · rw [takeDenomination?_of_isDigit digit] at h
    cases h
  · by_cases letter : c.isAlpha = true
    · rw [takeDenomination?_of_isAlpha letter] at h
      cases h
    · simp [takeDenomination?, digit, letter]

theorem eq_append_of_takeDenomination? {cs name after : List Char}
    (h : takeDenomination? cs = some (name, after)) :
    cs = name ++ after ∧ ∀ c ∈ name, c.isAlphanum = true := by
  cases cs with
  | nil => cases h
  | cons c cs =>
    by_cases digit : c.isDigit = true
    · rw [takeDenomination?_of_isDigit digit] at h
      obtain ⟨rfl, rfl⟩ := Prod.mk.inj (Option.some.inj h)
      refine ⟨List.takeWhile_append_dropWhile.symm, fun d hd => ?_⟩
      rw [Char.isAlphanum, (isInt_takeWhile digit cs).2 d hd, Bool.or_true]
    · by_cases letter : c.isAlpha = true
      · rw [takeDenomination?_of_isAlpha letter] at h
        obtain ⟨rfl, rfl⟩ := Prod.mk.inj (Option.some.inj h)
        refine ⟨rfl, List.forall_mem_singleton.2 ?_⟩
        rw [Char.isAlphanum, letter, Bool.true_or]
      · simp [takeDenomination?, digit, letter] at h

/-- An opening bracket is closed if none is loose. -/
theorem cutFlavor?_ne_none {cs ds : List Char} (h : '[' ∉ cs)
    (loose : Atom.char '[' ∉ Atom.scan (cs ++ '[' :: ds)) : Atom.cutFlavor? ds ≠ none := by
  intro none
  rw [Atom.scan_append_of_not_mem h, Atom.scan, if_pos rfl] at loose
  split at loose
  · next e => rw [none] at e; cases e
  · exact loose (List.mem_append_right _ List.mem_cons_self)

/-- What is spelled like dice up to its modifiers and is no dice goes on after its flavor. -/
theorem isEnd_of_readDice?_eq_none {cs tail name after : List Char} {d : Char}
    (h : cs.dropWhile Char.isDigit = d :: tail) (letter : d = 'd' ∨ d = 'D')
    (hname : takeDenomination? tail = some (name, after)) (none : readDice? cs = none) :
    isEnd (takeFlavor (after.dropWhile isModifierChar)).2 = false := by
  rw [Bool.eq_false_iff]
  intro isEnd
  have spells : Spells cs
      { number := (Modifier.takeNumber cs).1, denomination := name
        modifiers := after.takeWhile isModifierChar
        flavor := (takeFlavor (after.dropWhile isModifierChar)).1
        whole := cs.take (cs.length - (takeFlavor (after.dropWhile isModifierChar)).2.length) }
      d tail after (takeFlavor (after.dropWhile isModifierChar)).2 :=
    ⟨h, letter, hname, rfl, rfl, isEnd, rfl, rfl⟩
  rw [spells.readDice?] at none
  cases none

/-- No square bracket stands before the flavor of dice, so the one that opens it is closed. -/
theorem cutFlavor?_of_modifiers {cs tail name after follow : List Char} {d : Char}
    (h : cs.dropWhile Char.isDigit = d :: tail) (letter : d = 'd' ∨ d = 'D')
    (hname : takeDenomination? tail = some (name, after))
    (hafter : after.dropWhile isModifierChar = '[' :: follow)
    (loose : Atom.char '[' ∉ Atom.scan cs) : Atom.cutFlavor? follow ≠ none := by
  obtain ⟨happ, alphanum⟩ := eq_append_of_takeDenomination? hname
  have text : cs = (cs.takeWhile Char.isDigit ++ d :: (name ++ after.takeWhile isModifierChar))
      ++ '[' :: follow := by
    rw [← hafter, List.append_assoc, List.cons_append, List.append_assoc,
      List.takeWhile_append_dropWhile, ← happ, ← h, List.takeWhile_append_dropWhile]
  rw [text] at loose
  refine cutFlavor?_ne_none ?_ loose
  simp only [List.mem_append, List.mem_cons, not_or]
  refine ⟨?_, ?_, ?_, ?_⟩
  · intro hm
    exact absurd (List.mem_takeWhile_imp hm) (by decide)
  · rintro rfl
    revert letter
    decide
  · intro hm
    exact absurd (alphanum _ hm) (by decide)
  · intro hm
    exact absurd (List.mem_takeWhile_imp hm) (by decide)

/-- A text that would be dice but for what it ends with is no dice, whatever follows. -/
theorem neverDice_of_readDice? {cs rest name after : List Char} {d c : Char}
    (h : cs.dropWhile Char.isDigit = d :: c :: rest) (loose : Atom.char '[' ∉ Atom.scan cs)
    (letter : d = 'd' ∨ d = 'D') (hname : takeDenomination? (c :: rest) = some (name, after))
    (none : readDice? cs = none) : NeverDice config cs := by
  have notEnd := isEnd_of_readDice?_eq_none h letter hname none
  cases hafter : after.dropWhile isModifierChar with
  | nil =>
    rw [hafter] at notEnd
    cases notEnd
  | cons e follow =>
    rw [hafter] at notEnd
    have closed : e = '[' → Atom.cutFlavor? follow ≠ Option.none := by
      rintro rfl
      exact cutFlavor?_of_modifiers h letter hname hafter loose
    intro ds more t u digits ht hu
    obtain ⟨d', tail, after', rest', spells⟩ := exists_of_readDice? ht
    have head := spells.head
    rw [dropWhile_around h digits] at head
    obtain ⟨rfl, rfl⟩ := List.cons.inj head
    have hname' := spells.name
    cases after with
    | nil => cases hafter
    | cons a after =>
      rw [takeDenomination?_append hname] at hname'
      obtain ⟨-, rfl⟩ := Prod.mk.inj (Option.some.inj hname')
      have flavor := spells.flavor
      have isEnd := spells.isEnd
      rw [dropWhile_append_of_dropWhile hafter] at flavor
      have goesOn := isEnd_takeFlavor_append closed notEnd more
      rw [flavor, isEnd] at goesOn
      cases goesOn

/-! ### Numbers -/

end Leaf

theorem Decimal.isNumeralChar_layout (d : Decimal) :
    ∀ c ∈ d.layout, Arithmetic.IsNumeralChar c := by
  have digits (n : Nat) : ∀ c ∈ Nat.toDigits 10 n, Arithmetic.IsNumeralChar c := fun c hc =>
    .inl ((Arithmetic.isInt_toDigits n).2 c hc)
  have zeros (n : Nat) : ∀ c ∈ List.replicate n '0', Arithmetic.IsNumeralChar c := fun c hc =>
    .inl (by rw [List.eq_of_mem_replicate hc]; rfl)
  have stripped : ∀ c ∈ stripZeros (Nat.toDigits 10 d.coeff), Arithmetic.IsNumeralChar c := by
    intro c hc
    rw [stripZeros, List.mem_reverse] at hc
    exact digits _ c (List.mem_reverse.1 ((List.dropWhile_sublist _).subset hc))
  have exponent (e : Int) : ∀ c ∈ exponentText e, Arithmetic.IsNumeralChar c := by
    refine List.forall_mem_cons.2 ⟨?_, ?_⟩
    · split
      · exact .inr (.inr (.inr (.inr (.inr rfl))))
      · exact .inr (.inr (.inr (.inr (.inl rfl))))
    · split
      · exact List.forall_mem_cons.2 ⟨.inl rfl, digits _⟩
      · exact digits _
  have mark : Arithmetic.IsNumeralChar 'e' := .inr (.inr (.inl rfl))
  have point : Arithmetic.IsNumeralChar '.' := .inr (.inl rfl)
  unfold layout
  dsimp only
  generalize stripZeros (Nat.toDigits 10 d.coeff) = ds at stripped
  split
  · split
    · exact List.forall_mem_nil _
    · obtain ⟨hc, -⟩ := List.forall_mem_cons.1 stripped
      exact List.forall_mem_cons.2 ⟨hc, List.forall_mem_cons.2 ⟨mark, exponent _⟩⟩
    · obtain ⟨hc, hcs⟩ := List.forall_mem_cons.1 stripped
      exact List.forall_mem_append.2 ⟨List.forall_mem_cons.2 ⟨hc, List.forall_mem_cons.2
        ⟨point, hcs⟩⟩, List.forall_mem_cons.2 ⟨mark, exponent _⟩⟩
  · split
    · exact List.forall_mem_append.2 ⟨List.forall_mem_cons.2 ⟨.inl rfl, List.forall_mem_cons.2
        ⟨point, zeros _⟩⟩, stripped⟩
    · split
      · exact List.forall_mem_append.2 ⟨List.forall_mem_append.2 ⟨stripped, zeros _⟩,
          List.forall_mem_cons.2 ⟨point, List.forall_mem_singleton.2 (.inl rfl)⟩⟩
      · exact List.forall_mem_append.2
          ⟨fun c hc => stripped c (List.mem_of_mem_take hc), List.forall_mem_cons.2
            ⟨point, fun c hc => stripped c (List.mem_of_mem_drop hc)⟩⟩

theorem not_letter_of_isNumeralChar {c : Char} (h : Arithmetic.IsNumeralChar c) :
    ¬(c = 'd' ∨ c = 'D') := by
  rintro (rfl | rfl) <;> simp [Arithmetic.IsNumeralChar] at h

theorem not_letter_of_mem_toString {n : Int} {c : Char} (h : c ∈ (toString n).toList) :
    ¬(c = 'd' ∨ c = 'D') := by
  rw [Int.toString_eq_repr, Int.repr_eq_if] at h
  split at h
  · rw [Nat.toList_repr] at h
    exact not_letter_of_isNumeralChar (.inl ((Arithmetic.isInt_toDigits _).2 c h))
  · rw [String.toList_append, Nat.toList_repr] at h
    rcases List.mem_append.1 h with h | h
    · obtain rfl : c = '-' := List.mem_singleton.1 h
      decide
    · exact not_letter_of_isNumeralChar (.inl ((Arithmetic.isInt_toDigits _).2 c h))

theorem not_letter_of_mem_floatText {x : Float} {c : Char} (h : c ∈ (floatText x).toList) :
    ¬(c = 'd' ∨ c = 'D') := by
  have named : ∀ s ∈ ["nan", "-inf", "inf"], ∀ c ∈ s.toList, ¬(c = 'd' ∨ c = 'D') := by
    intro s hs
    have : (s.toList.all fun c => !(c == 'd' || c == 'D')) = true := by
      revert s
      decide
    simpa using this
  have signed {m : Nat} {cs : List Char} (hcs : ∀ c ∈ cs, Arithmetic.IsNumeralChar c)
      (h : c ∈ (String.ofList ((if m == 1 then ['-'] else []) ++ cs)).toList) :
      ¬(c = 'd' ∨ c = 'D') := by
    rw [String.toList_ofList] at h
    rcases List.mem_append.1 h with h | h
    · split at h
      · obtain rfl := List.mem_singleton.1 h
        decide
      · cases h
    · exact not_letter_of_isNumeralChar (hcs c h)
  unfold floatText at h
  split at h
  · split at h
    · exact named _ (by decide) c h
    · split at h
      · exact named _ (by decide) c h
      · exact named _ (by decide) c h
  · dsimp only at h
    split at h
    · exact signed (by simp [Arithmetic.IsNumeralChar]) h
    · exact signed (Decimal.isNumeralChar_layout _) h

/-- No `d` stands in the text of a number. -/
theorem Number.not_letter_of_mem_formulaText {n : Number} {c : Char}
    (h : c ∈ n.formulaText.toList) : ¬(c = 'd' ∨ c = 'D') := by
  cases n with
  | int n => exact not_letter_of_mem_toString h
  | float x =>
    unfold formulaText at h
    dsimp only at h
    split at h
    · split at h
      · exact not_letter_of_mem_toString h
      · exact not_letter_of_mem_floatText h
    · exact not_letter_of_mem_floatText h

/-! ## Harmless texts -/

namespace Leaf

/-- The text makes no dice with anything around it, or consists of digits. -/
def Harmless (config : Config) (cs : List Char) : Prop :=
  NeverDice config cs ∨ ∀ c ∈ cs, c.isDigit = true

/-- Digits, if any, and a `d` with nothing behind it. -/
def isHead (cs : List Char) : Bool :=
  match cs.dropWhile Char.isDigit with
  | [c] => c == 'd' || c == 'D'
  | _ => false

theorem harmless_of_not_letter {cs : List Char} (h : ∀ c ∈ cs, ¬(c = 'd' ∨ c = 'D')) :
    Harmless config cs := by
  cases hcs : cs.dropWhile Char.isDigit with
  | nil => exact .inr (List.dropWhile_eq_nil_iff.1 hcs)
  | cons d rest =>
    refine .inl (neverDice_of_head hcs (h d ?_))
    exact (List.dropWhile_sublist _).subset (hcs ▸ List.mem_cons_self)

theorem readNumeral?_eq_none {cs rest : List Char} {d : Char}
    (h : cs.dropWhile Char.isDigit = d :: rest) (letter : d = 'd' ∨ d = 'D') :
    readNumeral? cs = none := by
  have notFlavor : takeFlavor (d :: rest) = (none, d :: rest) := by
    refine takeFlavor_of_ne ?_ rest
    rintro rfl
    revert letter
    decide
  unfold readNumeral?
  dsimp only
  rw [drop_length_takeWhile, h]
  have notEnd : isEnd (d :: rest) = false := by
    rcases letter with rfl | rfl <;> simp [isEnd]
  rcases letter with rfl | rfl <;> simp [notFlavor, notEnd]

/-- What is spelled like dice is classified like dice. -/
theorem classify_of_readDice? {text : String} {t : DiceText} (h : readDice? text.toList = some t)
    (adjacent : Bool) :
    classify text config adjacent
      = if adjacent then .ok (textTerm text.toList config) else ofDice t config := by
  obtain ⟨d, tail, after, rest, spells⟩ := exists_of_readDice? h
  have leaf : classify.leaf text config adjacent text.toList
      = if adjacent then .ok (textTerm text.toList config) else ofDice t config := by
    rw [classify.leaf, readNumeral?_eq_none spells.head spells.letter, h]
  have full : tail ≠ [] := by
    rintro rfl
    have := spells.name
    cases this
  have head := spells.head
  unfold classify
  dsimp only
  split
  · next c hc =>
    -- one character cannot be dice
    rw [hc, List.dropWhile_cons] at head
    split at head
    · cases head
    · exact absurd (List.cons.inj head).2.symm full
  · next c hc =>
    rw [hc, List.dropWhile_cons] at head
    split at head
    · cases head
      rcases spells.letter with h | h <;> cases h
    · obtain rfl := (List.cons.inj head).2
      have := spells.name
      cases this
  · exact leaf

theorem rolls_of_takeDenomination? {c : Char} {cs ds name name' after after' : List Char}
    (h : takeDenomination? (c :: cs) = some (name, after)) (never : ¬config.Rolls name)
    (h' : takeDenomination? (c :: ds) = some (name', after')) : ¬config.Rolls name' :=
  fun rolls => never (rolls_congr h' h rolls)

/-- A text that is no dice by itself is harmless, unless it breaks off where a denomination should
follow. -/
theorem harmless_of_leafDeterministic {s : String}
    (loose : Atom.char '[' ∉ Atom.scan s.toList) (head : isHead s.toList = false)
    (calm : leafDeterministic (.str s) config = .ok true) : Harmless config s.toList := by
  cases hcs : s.toList.dropWhile Char.isDigit with
  | nil => exact .inr (List.dropWhile_eq_nil_iff.1 hcs)
  | cons d rest =>
    refine .inl ?_
    by_cases letter : d = 'd' ∨ d = 'D'
    · cases rest with
      | nil =>
        rw [isHead, hcs] at head
        rcases letter with rfl | rfl <;> cases head
      | cons c rest =>
        cases hname : takeDenomination? (c :: rest) with
        | none =>
          refine neverDice_of_tail hcs fun ds name after h => ?_
          rw [takeDenomination?_eq_none hname ds] at h
          cases h
        | some pair =>
          obtain ⟨name, after⟩ := pair
          by_cases rolls : config.Rolls name
          · refine neverDice_of_readDice? hcs loose letter hname ?_
            by_contra some
            obtain ⟨t, ht⟩ := Option.ne_none_iff_exists'.1 some
            obtain ⟨d', tail, after', rest', spells⟩ := exists_of_readDice? ht
            obtain ⟨rfl, rfl⟩ := List.cons.inj (spells.head.symm.trans hcs)
            obtain ⟨rfl, -⟩ := Prod.mk.inj (Option.some.inj (spells.name.symm.trans hname))
            obtain ⟨dice, l, carried, hdice⟩ := exists_ofDice_of_rolls rolls
            have hclass := @classify_of_readDice? config s t ht false
            rw [if_neg Bool.false_ne_true, hdice] at hclass
            rw [leafDeterministic, hclass] at calm
            cases calm
          · exact neverDice_of_tail hcs fun ds name' after' h =>
              rolls_of_takeDenomination? hname rolls h
    · exact neverDice_of_head hcs letter

/-- Dice of a denomination that makes none are harmless as a text. -/
theorem neverDice_whole {cs : List Char} {t : DiceText} (h : readDice? cs = some t)
    (never : ¬config.Rolls t.denomination) : NeverDice config t.whole := by
  obtain ⟨d, tail, after, rest, spells⟩ := exists_of_readDice? h
  cases tail with
  | nil => cases spells.name
  | cons c tail =>
    obtain ⟨more, hmore⟩ : ∃ more, t.whole.dropWhile Char.isDigit = d :: c :: more := by
      have short : rest.length ≤ tail.length := by
        have := length_of_takeDenomination? spells.name
        have flavor := length_takeFlavor_le (after.dropWhile isModifierChar)
        rw [spells.flavor] at flavor
        have := List.length_dropWhile_le (p := isModifierChar) after
        simp only [List.length_cons] at *
        omega
      have text : cs = cs.takeWhile Char.isDigit ++ d :: c :: tail := by
        rw [← spells.head, List.takeWhile_append_dropWhile]
      have count : cs.length - rest.length
          = (cs.takeWhile Char.isDigit).length + (tail.length - rest.length + 2) := by
        have := congrArg List.length text
        simp only [List.length_append, List.length_cons] at this
        omega
      refine ⟨tail.take (tail.length - rest.length), ?_⟩
      have whole : t.whole = cs.takeWhile Char.isDigit
          ++ d :: c :: tail.take (tail.length - rest.length) := by
        rw [spells.whole, count]
        have := @List.take_length_add_append _ (cs.takeWhile Char.isDigit) (d :: c :: tail)
          (tail.length - rest.length + 2)
        rwa [← text] at this
      rw [whole, List.dropWhile_append_of_pos fun _ => List.mem_takeWhile_imp,
        List.dropWhile_cons_of_neg (by simp [not_of_dropWhile spells.head])]
    exact neverDice_of_tail hmore fun ds name' after' h =>
      rolls_of_takeDenomination? spells.name never h

/-- A leaf that is no dice is harmless if it does not stay the text it was. -/
theorem harmless_of_classified {cs : List Char} {t : Term} {adjacent : Bool}
    (h : Classified config cs adjacent t) (notDice : t.die? = none)
    (text : t = textTerm cs config → Harmless config cs) :
    Harmless config t.written.toList := by
  cases h with
  | @operator _ s =>
    refine .inl (@neverDice_of_head _ _ [s.char, ' '] ' ' ?_ (by decide))
    simp [Term.written, Term.make]
  | number => exact harmless_of_not_letter fun _ => Number.not_letter_of_mem_formulaText
  | text => simpa [textTerm, Term.written, Term.make, Value.text] using text rfl
  | dice hd hu =>
    rcases cases_of_ofDice hu with ⟨never, rfl⟩ | ⟨-, kind, -, rfl⟩
    · refine .inl ?_
      simpa [textTerm, Term.written, Term.make, Value.text] using neverDice_whole hd never
    · cases notDice

/-- What a harmless text is classified as is no dice, and harmless. -/
theorem harmless_of_classify {text : String} {t : Term} {adjacent : Bool}
    (h : Harmless config text.toList) (ht : classify text config adjacent = .ok t) :
    t.die? = none ∧ Harmless config t.written.toList := by
  have classified := classified_of_classify ht
  have notDice : t.die? = none := by
    cases classified with
    | operator | number | text => rfl
    | dice hd hu =>
      rcases h with h | digits
      · exact h [] [] _ _ (List.forall_mem_nil _) (by simpa using hd) hu
      · obtain ⟨_, _, _, _, spells⟩ := exists_of_readDice? hd
        have head := spells.head
        rw [List.dropWhile_eq_nil_iff.2 digits] at head
        cases head
  exact ⟨notDice, harmless_of_classified classified notDice fun _ => h⟩

/-- A calm leaf is harmless unless it breaks off where a denomination should follow. -/
theorem harmless_of_calm {text : String} {t : Term} {adjacent : Bool}
    (ht : classify text config adjacent = .ok t) (loose : Atom.char '[' ∉ Atom.scan text.toList)
    (calm : t.calm = .ok true) (head : ∀ s, t.body = .text (.str s) → isHead s.toList = false) :
    t.die? = none ∧ Harmless config t.written.toList := by
  have notDice : t.die? = none := by
    obtain ⟨body, l, carried⟩ := t
    cases body with
    | dice d => cases calm
    | _ => rfl
  refine ⟨notDice, harmless_of_classified (classified_of_classify ht) notDice ?_⟩
  rintro rfl
  refine harmless_of_leafDeterministic loose ?_ ?_
  · have := head _ rfl
    rwa [String.ofList_toList] at this
  · have : leafDeterministic (.str (String.ofList text.toList)) config = .ok true := calm
    rwa [String.ofList_toList] at this

/-- Digits and harmless texts stay harmless when they are put together, before a flavor as well. -/
theorem Harmless.append {left right flavor : List Char} (hl : Harmless config left)
    (hr : Harmless config right) (hf : flavor = [] ∨ ∃ cs, flavor = '[' :: cs) :
    Harmless config (left ++ (right ++ flavor)) := by
  rcases hl with hl | hl
  · refine .inl fun ds more t u digits ht => hl ds (right ++ flavor ++ more) t u digits ?_
    rw [← ht]
    simp only [List.append_assoc]
  · rcases hr with hr | hr
    · refine .inl fun ds more t u digits ht => hr (ds ++ left) (flavor ++ more) t u
        (List.forall_mem_append.2 ⟨digits, hl⟩) ?_
      rw [← ht]
      simp only [List.append_assoc]
    · rcases hf with rfl | ⟨cs, rfl⟩
      · exact .inr (List.forall_mem_append.2 ⟨hl, List.forall_mem_append.2 ⟨hr,
          List.forall_mem_nil _⟩⟩)
      · refine .inl (@neverDice_of_head _ _ cs '[' ?_ (by decide))
        rw [List.dropWhile_append_of_pos hl, List.dropWhile_append_of_pos hr]
        rfl

end Leaf

end DiceFormula
