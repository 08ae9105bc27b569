import DiceFormula.Proofs.Roll.Parentheses

/-!
# Dice with a group in them

The number of some dice, or the number of their faces, may stand in parentheses. Such dice are rolled
as if the integer that the formula in parentheses comes to were written in its place
(`Roll.evaluation_dynamic`): the text beside the group waits until the group is a number, is joined
with its digits, and makes the same dice then.
-/

namespace DiceFormula

open Arithmetic
open Atom (scan)

variable {config : Config} {context : Context}

/-! ## Spaces in the flavor of some dice -/

namespace Leaf

theorem isFlavor_squeezeFrom {flavor : Option (List Char)} (h : IsFlavor flavor) :
    IsFlavor (flavor.map (Blank.squeezeFrom false)) := by
  intro f hf
  obtain ⟨g, hg, rfl⟩ := Option.mem_map.1 hf
  obtain ⟨full, closed⟩ := h g hg
  refine ⟨?_, fun hm => (Blank.mem_of_mem_squeezeFrom hm).elim closed (by decide)⟩
  cases g with
  | nil => exact absurd rfl full
  | cons c g =>
    rw [Blank.squeezeFrom]
    split <;> exact List.cons_ne_nil _ _

theorem squeezeFrom_flavorChars (flavor : Option (List Char)) :
    Blank.squeezeFrom false (flavorChars flavor)
      = flavorChars (flavor.map (Blank.squeezeFrom false)) := by
  cases flavor with
  | none => rfl
  | some f =>
    have opened : Blank.isBlank '[' = false := rfl
    have closed := Blank.squeezeFrom_append_cons Blank.isBlank_closeSquare false f []
    rw [flavorChars, List.cons_append, Blank.squeezeFrom_cons opened, closed]
    rfl

/-- A denomination is taken from the front of a text unless a digit goes on with it. -/
theorem takeDenomination?_front {cs name after more : List Char}
    (h : takeDenomination? cs = some (name, after))
    (next : ∀ c ∈ more.head?, c.isDigit = true → c ∈ after.head?) :
    takeDenomination? (name ++ more) = some (name, more) := by
  cases cs with
  | nil => cases h
  | cons c cs =>
    by_cases digit : c.isDigit = true
    · rw [takeDenomination?_of_isDigit digit] at h
      obtain ⟨rfl, rfl⟩ := Prod.mk.inj (Option.some.inj h)
      have noDigit : NoDigit more := by
        intro d hd
        by_contra isDigit
        have isDigit : d.isDigit = true := by simpa using isDigit
        rw [noDigit_dropWhile _ d (next d hd isDigit)] at isDigit
        cases isDigit
      have digits := isDigits_takeWhile (c :: cs)
      have all := takeWhile_digits digits noDigit
      have rest := dropWhile_digits digits noDigit
      rw [List.takeWhile_cons_of_pos digit] at all rest ⊢
      rw [List.cons_append, takeDenomination?_of_isDigit digit, ← List.cons_append, all, rest]
    · by_cases letter : c.isAlpha = true
      · rw [takeDenomination?_of_isAlpha letter] at h
        obtain ⟨rfl, -⟩ := Prod.mk.inj (Option.some.inj h)
        exact takeDenomination?_of_isAlpha letter more
      · simp [takeDenomination?, digit, letter] at h

/-- Dice are spelled alike whatever their flavor is. -/
theorem Spells.reflavored {cs tail after rest : List Char} {t : DiceText} {d : Char}
    (h : Spells cs t d tail after rest) {flavor : Option (List Char)} (isFlavor : IsFlavor flavor) :
    ∃ u, Leaf.readDice? (cs.takeWhile Char.isDigit
        ++ d :: (t.denomination ++ (t.modifiers ++ flavorChars flavor))) = some u
      ∧ u.denomination = t.denomination := by
  have digits : ∀ c ∈ cs.takeWhile Char.isDigit, c.isDigit = true :=
    fun c => List.mem_takeWhile_imp
  have letter : d.isDigit = false := by rcases h.letter with rfl | rfl <;> rfl
  have modifiers : ∀ c ∈ t.modifiers, isModifierChar c = true := by
    rw [h.modifiers]
    exact fun c => List.mem_takeWhile_imp
  have ends : ∀ c ∈ (flavorChars flavor).head?, isModifierChar c = false := by
    intro c hc
    rw [head_flavorChars hc]
    rfl
  have taken : takeDenomination? (t.denomination ++ (t.modifiers ++ flavorChars flavor))
      = some (t.denomination, t.modifiers ++ flavorChars flavor) := by
    refine takeDenomination?_front h.name fun c hc digit => ?_
    cases front : t.modifiers with
    | nil =>
      rw [front, List.nil_append] at hc
      rw [noDigit_flavorChars flavor c hc] at digit
      cases digit
    | cons e ms =>
      rw [front] at hc
      have first := List.head?_takeWhile (p := isModifierChar) (l := after)
      rw [← h.modifiers, front] at first
      exact (Option.mem_filter_iff.1 (first ▸ hc)).1
  have ended : Leaf.isEnd [] = true := rfl
  refine ⟨_, Spells.readDice? (d := d) (t := ⟨_, t.denomination, t.modifiers, flavor, _⟩)
    ⟨?_, h.letter, taken, ?_, ?_, ended, rfl, rfl⟩, rfl⟩
  · rw [List.dropWhile_append_of_pos digits, List.dropWhile_cons_of_neg (by simp [letter])]
  · exact (takeWhile_append_of_head? modifiers ends).symm
  · rw [dropWhile_append_of_head? modifiers ends, takeFlavor_flavorChars isFlavor]

/-- Dice stay dice where the spaces in their flavor are squeezed. -/
theorem readDice?_squeezeFrom {cs : List Char} {t : DiceText} (h : readDice? cs = some t)
    (solid : ∀ a ∈ scan cs, a.isBlank = false) :
    ∃ u, readDice? (Blank.squeezeFrom false cs) = some u ∧ u.denomination = t.denomination := by
  obtain ⟨d, tail, after, rest, spells⟩ := exists_of_readDice? h
  obtain ⟨isFlavor, -⟩ := of_takeFlavor spells.flavor
  rw [spells.text, Atom.scan_append_of_not_mem spells.loose, scan_flavorChars isFlavor] at solid
  have noBlank : ∀ c ∈ cs.takeWhile Char.isDigit ++ d :: (t.denomination ++ t.modifiers),
      Blank.isBlank c = false := fun c hc =>
    solid (.char c) (List.mem_append_left _ (List.mem_map_of_mem hc))
  obtain rfl : rest = [] := by
    rcases Bool.or_eq_true_iff.1 spells.isEnd with none | broken
    · exact beq_iff_eq.1 none
    · rw [beq_iff_eq.1 broken] at solid
      have := solid (.char '\n') (by simp [scan])
      cases this
  obtain ⟨u, read, denomination⟩ := spells.reflavored (isFlavor_squeezeFrom isFlavor)
  refine ⟨u, ?_, denomination⟩
  rw [spells.text, List.append_nil, Blank.squeezeFrom_append noBlank, squeezeFrom_flavorChars]
  simpa using read

theorem written_textTerm (cs : List Char) : (textTerm cs config).written = String.ofList cs := rfl

/-- It is the denomination that makes dice. -/
theorem exists_diceTerm {t u : DiceText} {v : Term} (h : ofDice t config = .ok v)
    (dice : v.isDice = true) (same : u.denomination = t.denomination) :
    ∃ kind, ofDice u config = .ok (diceTerm kind u config) := by
  rcases cases_of_ofDice h with ⟨-, rfl⟩ | ⟨rolls, -⟩
  · cases dice
  · rw [← same] at rolls
    obtain ⟨d, l, carried, hu⟩ := exists_ofDice_of_rolls rolls
    rcases cases_of_ofDice hu with ⟨never, -⟩ | ⟨-, kind, -, eq⟩
    · exact absurd rolls never
    · exact ⟨kind, by rw [hu, eq]⟩

theorem classify_squeezeFrom {cs : List Char} {t : Term}
    (h : classify (String.ofList cs) config false = .ok t) (dice : t.isDice = true)
    (solid : ∀ a ∈ scan cs, a.isBlank = false) :
    ∃ kind u, classify (String.ofList (Blank.squeezeFrom false cs)) config false
      = .ok (diceTerm kind u config) := by
  have classified := classified_of_classify h
  rw [String.toList_ofList] at classified
  cases classified with
  | operator | number | text => cases dice
  | @dice d _ read made =>
    obtain ⟨u, read, denomination⟩ := readDice?_squeezeFrom read solid
    obtain ⟨kind, hu⟩ := exists_diceTerm made dice denomination
    refine ⟨kind, u, ?_⟩
    rw [classify_of_readDice? (by rwa [String.toList_ofList]), if_neg Bool.false_ne_true, hu]

end Leaf

/-! ## Formulas that are refused -/

/-- Symbols behind a text without any are replaced as if they stood alone. -/
theorem Symbols.substitute_append (data : Value) {s : String} (h : '@' ∉ s.toList) (t : String) :
    substitute data (s ++ t) = (fun u => s ++ u) <$> substitute data t := by
  have chars (cs : List Char) (hcs : '@' ∉ cs) (ds : List Char) :
      substituteFrom data (cs ++ ds).length (cs ++ ds)
        = (fun es => cs ++ es) <$> substituteFrom data ds.length ds := by
    induction cs with
    | nil => exact (id_map _).symm
    | cons c cs ih =>
      obtain ⟨hc, hcs⟩ := List.ne_and_not_mem_of_not_mem_cons hcs
      rw [List.cons_append, List.length_cons, substituteFrom, if_neg (by simpa using Ne.symm hc),
        ih hcs]
      cases substituteFrom data ds.length ds <;> rfl
  rw [substitute, substitute, String.toList_append, chars _ h]
  cases substituteFrom data t.toList.length t.toList with
  | error e => rfl
  | ok es =>
    refine congrArg Except.ok ?_
    rw [← String.toList_inj]
    simp

theorem Roll.create_of_dollar {f : String} {data options : Value}
    (plain : Symbols.substitute (Symbols.tableOf data) f = .ok f) (dollar : '$' ∈ f.toList) :
    ∃ text, create (.str f) data options config = .error (.parse (.reservedDollar text)) := by
  have solid {s : String} (h : '$' ∈ s.toList) : '$' ∈ (Formula.normalize s).toList := by
    rw [Formula.normalize, String.toList_ofList, Blank.normalize]
    exact Blank.mem_trim rfl (Blank.mem_squeezeFrom rfl h)
  have found := solid (solid dollar)
  have full : (Formula.normalize (Formula.normalize f)).isEmpty = false := by
    rw [← Bool.not_eq_true, String.isEmpty_iff]
    intro empty
    rw [empty] at found
    cases found
  have refused : Formula.parseTerms config (Formula.normalize f)
      = .error (.parse (.reservedDollar (Formula.normalize (Formula.normalize f)))) := by
    rw [Formula.parseTerms, Formula.readTerms]
    dsimp only
    rw [full, if_neg Bool.false_ne_true, if_pos (List.contains_iff_mem.2 found)]
  refine ⟨Formula.normalize (Formula.normalize f), ?_⟩
  rw [create, Formula.parse, plain, bind_ok]
  dsimp only
  rw [refused]
  rfl

theorem Roll.create_of_symbol {f : String} {data options : Value} {e : Error}
    (h : Symbols.substitute (Symbols.tableOf data) f = .error e) :
    create (.str f) data options config = .error e := by
  rw [create, Formula.parse, h]
  rfl

/-- What stands behind a text decides whether it is refused for its symbols or reserved characters,
and with which error, or whether it is left as it is. -/
theorem Roll.refused_or_substitute (s : String) (options : Value) (config : Config) :
    (('@' ∈ s.toList ∨ '$' ∈ s.toList) ∧ ∃ kind, ∀ g : String, '@' ∉ g.toList →
        ∃ e, create (.str (g ++ s)) .null options config = .error e ∧ e.kind = kind)
      ∨ '$' ∉ s.toList ∧ ∀ g : String, '@' ∉ g.toList →
        Symbols.substitute (Symbols.tableOf .null) (g ++ s) = .ok (g ++ s) := by
  cases symbol : Symbols.substitute (Symbols.tableOf .null) s with
  | error e =>
    refine .inl ⟨.inl ?_, e.kind, fun g free => ⟨e, create_of_symbol ?_, rfl⟩⟩
    · by_contra none
      rw [Symbols.substitute_of_not_mem _ none] at symbol
      cases symbol
    · rw [Symbols.substitute_append _ free, symbol]
      rfl
  | ok t =>
    obtain rfl := Symbols.substitute_null symbol
    have plain (g : String) (free : '@' ∉ g.toList) :
        Symbols.substitute (Symbols.tableOf .null) (g ++ t) = .ok (g ++ t) := by
      rw [Symbols.substitute_append _ free, symbol]
      rfl
    by_cases dollar : '$' ∈ t.toList
    · refine .inl ⟨.inr dollar, .parse, fun g free => ?_⟩
      obtain ⟨text, refused⟩ := @create_of_dollar config _ _ options (plain g free)
        (by simp [dollar])
      exact ⟨_, refused, rfl⟩
    · exact .inr ⟨dollar, plain⟩

/-! ## Around a group -/

theorem toList_toString (n : Nat) : (toString n).toList = Nat.toDigits 10 n := intText_eq n

namespace Formula

/-- The texts before and behind a group make it the number of some dice, or the number of their
faces. What stands behind the group is a single token. -/
inductive DiceAround : String → String → Prop
  | number {after : String} {d : Char} {tail : List Char} : after.toList = d :: tail →
      d = 'd' ∨ d = 'D' → (∀ a ∈ scan after.toList, a.Flat) → DiceAround "" after
  | faces {ds : List Char} : (∀ c ∈ ds, c.isDigit = true) → DiceAround (String.ofList ds ++ "d") ""

namespace DiceAround

variable {before after : String}

theorem alphanum (h : DiceAround before after) : ∀ c ∈ before.toList, c.isAlphanum = true := by
  cases h with
  | number => exact fun c hc => by cases hc
  | faces digits =>
    intro c hc
    rw [String.toList_append, String.toList_ofList] at hc
    exact isAlphanum_of_mem_digits digits c hc

theorem flat (h : DiceAround before after) : ∀ a ∈ scan after.toList, a.Flat := by
  cases h with
  | number _ _ flat => exact flat
  | faces =>
    intro a ha
    rw [show "".toList = [] from rfl, scan] at ha
    cases ha

/-- The characters of the written dice up to what stands behind the group. -/
theorem front (h : DiceAround before after) (n : Nat) :
    ∀ c ∈ (before ++ toString n).toList, c.isAlphanum = true := by
  intro c hc
  rw [String.toList_append, toList_toString] at hc
  rcases List.mem_append.1 hc with hc | hc
  · exact h.alphanum c hc
  · simp [Char.isAlphanum, (isInt_toDigits n).2 c hc]

/-- The written dice are a single token. -/
theorem flat_written (h : DiceAround before after) (n : Nat) :
    ∀ a ∈ scan (before ++ toString n ++ after).toList, a.Flat := by
  have loose : '[' ∉ (before ++ toString n).toList := fun hm => absurd (h.front n _ hm) (by decide)
  intro a ha
  rw [String.toList_append, Atom.scan_append_of_not_mem loose] at ha
  rcases List.mem_append.1 ha with ha | ha
  · obtain ⟨c, hc, rfl⟩ := List.mem_map.1 ha
    exact Atom.flat_of_isAlphanum (h.front n c hc)
  · exact h.flat a ha

theorem squeezeFrom_written (h : DiceAround before after) (n : Nat) :
    Blank.squeezeFrom false (before ++ toString n ++ after).toList
      = (before ++ toString n).toList ++ Blank.squeezeFrom false after.toList := by
  rw [String.toList_append]
  exact Blank.squeezeFrom_append (fun c hc => Atom.isBlank_of_isAlphanum (h.front n c hc)) _

end DiceAround

end Formula

namespace Roll

theorem fuse_of_classify {left right : Term} {kind : DiceKind} {u : Leaf.DiceText}
    (plain : left.flavor.truthy = false)
    (h : Leaf.classify (left.written ++ right.formulaText) config false
      = .ok (Leaf.diceTerm kind u config)) :
    fuse left right config
      = .ok { Leaf.diceTerm kind u config with carried := left.carried ++ right.carried } := by
  rw [fuse, h, bind_ok]
  simp only [plain, Bool.and_false, Bool.false_eq_true, if_false]
  rfl

theorem simplify_pair {left right t : Term} (hl : left.isOperator = false)
    (hr : right.isOperator = false) (h : fuse left right config = .ok t)
    (ht : t.isOperator = false) : simplify config [left, right] = .ok [t] := by
  simp [simplify, joinTerm, hl, hr, h, ht]


theorem formulaText_groupNumber (x : Number) (dice : List Term) :
    (groupNumber config x dice).formulaText = x.formulaText := String.append_empty

/-- The text beside a group is read as it stands. Once the group is a number, both are joined, and
what comes of it is what is written with the digits of the number. -/
theorem exists_reads_around {before after : String} (around : Formula.DiceAround before after)
    {f : String} {ts : List Term} (reads : Formula.Reads config f ts) (dollar : '$' ∉ after.toList)
    {n : Nat} {kind : DiceKind} {u : Leaf.DiceText}
    (h : Leaf.classify (String.ofList (Blank.squeezeFrom false
      (before ++ toString n ++ after).toList)) config false = .ok (Leaf.diceTerm kind u config)) :
    ∃ front back, Formula.Reads config (before ++ "(" ++ f ++ ")" ++ after)
        (front ++ Formula.parenthesized config f :: back)
      ∧ (∀ t ∈ front ++ back, t.isIntermediate = false)
      ∧ ∀ x dice, x.formulaText = toString n →
        simplify config (front ++ groupNumber config x dice :: back)
          = .ok [{ Leaf.diceTerm kind u config with carried := dice }] := by
  rw [around.squeezeFrom_written] at h
  cases around with
  | @number _ d tail text letter flat =>
    refine ⟨[], _, Formula.reads_number reads text letter flat dollar, ?_, ?_⟩
    · exact List.forall_mem_singleton.2 rfl
    · intro x dice hx
      have joined : (groupNumber config x dice).written
          ++ (Leaf.textTerm (Blank.squeezeFrom false after.toList) config).formulaText
          = String.ofList (("" ++ toString n).toList ++ Blank.squeezeFrom false after.toList) := by
        rw [show (groupNumber config x dice).written = _ from hx, Formula.formulaText_textTerm,
          ← String.toList_inj]
        simp
      have fused := fuse_of_classify rfl (joined ▸ h)
      have carried : (groupNumber config x dice).carried
          ++ (Leaf.textTerm (Blank.squeezeFrom false after.toList) config).carried = dice :=
        List.append_nil dice
      rw [carried] at fused
      exact simplify_pair rfl rfl fused rfl
  | @faces ds digits =>
    refine ⟨[Leaf.textTerm (ds ++ ['d']) config], [], ?_, ?_, ?_⟩
    · have whole : String.ofList ds ++ "d" ++ "(" ++ f ++ ")" ++ ""
          = String.ofList ds ++ "d(" ++ f ++ ")" := by
        rw [← String.toList_inj]
        simp
      rw [whole]
      exact Formula.reads_faces reads digits
    · exact List.forall_mem_singleton.2 rfl
    · intro x dice hx
      have joined : (Leaf.textTerm (ds ++ ['d']) config).written
          ++ (groupNumber config x dice).formulaText
          = String.ofList ((String.ofList ds ++ "d" ++ toString n).toList
            ++ Blank.squeezeFrom false "".toList) := by
        rw [formulaText_groupNumber, hx, Leaf.written_textTerm, ← String.toList_inj]
        simp [Blank.squeezeFrom]
      have fused := fuse_of_classify rfl (joined ▸ h)
      exact simplify_pair rfl rfl fused rfl

/-! ## Dice that are rolled -/

/-- What terms settle on that are joined already. -/
def settled (context : Context) (ts : List Term) : Drawing (List Term × Number) := do
  let vs ← ts.mapM (rolled evaluation context)
  let n ← .ofExcept (amount vs)
  return (vs, n)

theorem mapM_numbered {ts : List Term} (h : ∀ t ∈ ts, t.isIntermediate = false) :
    ts.mapM (numbered evaluation context config) = pure ts := by
  induction ts with
  | nil => rfl
  | cons t ts ih =>
    obtain ⟨ht, hts⟩ := List.forall_mem_cons.1 h
    rw [List.mapM_cons, ih hts, numbered, ht]
    rfl

/-- A value that is no group stands as it is until it is evaluated. -/
theorem settlement_value {t : Term} (whole : t.isIntermediate = false)
    (value : t.isOperator = false) : settlement context [t] = settled context [t] := by
  have alone : simplify context.config [t] = .ok [t] := by simp [simplify, joinTerm, value]
  rw [settlement, mapM_numbered (List.forall_mem_singleton.2 whole), pure_bind, alone]
  rfl

/-- What a group settles on with texts around it. -/
theorem settlement_around {f : String} (symbols : '@' ∉ f.toList) {ts : List Term}
    (reads : Formula.Reads context.config f ts) {front back : List Term}
    (whole : ∀ t ∈ front ++ back, t.isIntermediate = false) :
    settlement context (front ++ Formula.parenthesized context.config f :: back)
      = (do
        let p ← settlement context ts
        let n ← .ofExcept (definedNumber (.num p.2))
        let us ← .ofExcept (simplify context.config
          (front ++ groupNumber context.config n (diceOfTerms p.1) :: back))
        settled context us) := by
  obtain ⟨hfront, hback⟩ := List.forall_mem_append.1 whole
  rw [settlement, List.mapM_append, mapM_numbered hfront, List.mapM_cons,
    numbered_parenthesized symbols reads, mapM_numbered hback]
  simp only [bind_assoc, pure_bind]
  rfl

/-- What some dice show once they are rolled, and how much that is. -/
def shown (context : Context) (d : Dice) (l : Label) : Drawing (Hand × Number) := do
  let p ← (d.roll context d.hand).result
  let n ← .ofExcept (amount [⟨.dice { d with hand := p.1 }, { l with mark := .bool true }, []⟩])
  return (p.1, n)

/-- What dice settle on has nothing to do with what they carry. -/
theorem settled_dice {d : Dice} {l : Label} (waits : l.mark.truthy = false) (carried : List Term) :
    settled context [⟨.dice d, l, carried⟩]
      = (do
        let p ← shown context d l
        return ([⟨.dice { d with hand := p.1 }, { l with mark := .bool true }, carried⟩], p.2)) := by
  have waits' : (⟨.dice d, l, carried⟩ : Term).evaluated = false := waits
  simp only [settled, shown, List.mapM_cons, List.mapM_nil, rolled, waits', Bool.not_false, if_true,
    Term.result_dice waits, bind_map_left, bind_assoc, pure_bind]
  rfl

/-- Nor does it matter how many draws were made before. -/
theorem shown_shift (d : Dice) (l : Label) (k : Nat) (src : Source) :
    shown context d l (src.shift k)
      = ((shown context d l src).1, (shown context d l src).2.shift k) := by
  have shifted := Steps.result_shift k (d.roll context d.hand) src
  rw [shown]
  cases hx : (d.roll context d.hand).result src with
  | mk a rest =>
    rw [hx] at shifted
    cases a with
    | error e => rw [Drawing.bind_of_error hx, Drawing.bind_of_error shifted]
    | ok p =>
      rw [Drawing.bind_of_ok hx, Drawing.bind_of_ok shifted]
      cases amount [⟨.dice { d with hand := p.1 }, { l with mark := .bool true }, []⟩] <;> rfl

/-- A run comes to what another one does, after `k` draws more. Its die stands behind the given
dice. -/
structure RollsLike (k : Nat) (dice : List Term) (dynamic written : Report Roll Unit) : Prop where
  ending : dynamic.ending = written.ending
  source : dynamic.source = written.source.shift k
  total : written.ending = .finished () → dynamic.state.total = written.state.total
  dice : written.ending = .finished () → ∃ die die' : Term, written.state.dice = [die]
    ∧ dynamic.state.dice = dice ++ [die'] ∧ die'.toRecord = die.toRecord

theorem rollsLike_of_settlement {q w : Roll} {formula formula' data options : Value}
    (hq : create formula data options context.config = .ok q)
    (hw : create formula' data options context.config = .ok w) {d : Dice} {l : Label}
    (waits : l.mark.truthy = false) (terms : w.terms = [⟨.dice d, l, []⟩]) {carried : List Term}
    {k : Nat} {src src' : Source}
    (h : settlement context q.terms src' = settled context [⟨.dice d, l, carried⟩] (src.shift k)) :
    RollsLike k carried ((evaluation context q).run .never src')
      ((evaluation context w).run .never src) := by
  have alone : settlement context w.terms src = settled context [⟨.dice d, l, []⟩] src := by
    rw [terms, settlement_value rfl rfl]
  rw [settled_dice waits] at h alone
  have shifted := @shown_shift context d l k src
  cases rolled : shown context d l src with
  | mk out rest =>
    rw [rolled] at shifted
    cases out with
    | error e =>
      rw [Drawing.bind_of_error shifted] at h
      rw [Drawing.bind_of_error rolled] at alone
      obtain ⟨failed, source⟩ := failed_of_settlement hq h
      obtain ⟨failed', source'⟩ := failed_of_settlement hw alone
      have unfinished : ((evaluation context w).run .never src).ending ≠ .finished () := by
        rw [failed']
        exact nofun
      exact ⟨failed.trans failed'.symm, by rw [source, source'],
        fun finished => absurd finished unfinished, fun finished => absurd finished unfinished⟩
    | ok p =>
      rw [Drawing.bind_of_ok shifted] at h
      rw [Drawing.bind_of_ok rolled] at alone
      obtain ⟨finished, state, source⟩ := finished_of_settlement hq h
      obtain ⟨finished', state', source'⟩ := finished_of_settlement hw alone
      refine ⟨finished.trans finished'.symm, by rw [source, source'], fun _ => ?_, fun _ => ?_⟩
      · rw [state, state']
        rfl
      · rw [state, state']
        exact ⟨_, _, rfl, List.append_nil _, rfl⟩

/-- **Dynamic dice mean what they spell.** Where a formula comes to an integer, the dice with the
formula in parentheses are those with the integer written in its place: both are refused, because of
a symbol or a reserved character behind the group, or they come to the same after the same draws,
those for the formula aside. The die shows the same, and stands behind the dice of the formula. -/
theorem evaluation_dynamic {f : String} (symbols : '@' ∉ f.toList) {options : Value} {r : Roll}
    (h : create (.str f) .null options config = .ok r) {mode : Mode} {ds : List Float} {y : Float}
    {x : Number} {n : Nat} (whole : x.whole? = some n) {before after : String}
    (around : Formula.DiceAround before after) {t : Term}
    (spelled : Leaf.classify (before ++ toString n ++ after) config false = .ok t)
    (dice : t.isDice = true) :
    let first := (evaluation { config, mode } r).run .never ⟨ds, some y, 0⟩
    first.ending = .finished () → first.source.used = ds.length → first.state.total = .num x →
      (('@' ∈ after.toList ∨ '$' ∈ after.toList) ∧ ∃ e e',
        create (.str (before ++ "(" ++ f ++ ")" ++ after)) .null options config = .error e
          ∧ create (.str (before ++ toString n ++ after)) .null options config = .error e'
          ∧ e.kind = e'.kind)
      ∨ ∃ q w, create (.str (before ++ "(" ++ f ++ ")" ++ after)) .null options config = .ok q
          ∧ create (.str (before ++ toString n ++ after)) .null options config = .ok w
          ∧ ∀ (es : List Float) (fill : Option Float),
            RollsLike ds.length first.state.dice
              ((evaluation { config, mode } q).run .never ⟨ds ++ es, fill, 0⟩)
              ((evaluation { config, mode } w).run .never ⟨es, fill, 0⟩) := by
  intro first finished used total
  obtain ⟨opts, ho, reads, hr⟩ := reads_of_create symbols h
  have groupFree : '@' ∉ (before ++ "(" ++ f ++ ")").toList := by
    have free : '@' ∉ before.toList := fun hm => absurd (around.alphanum _ hm) (by decide)
    simp [free, symbols]
  have numberFree : '@' ∉ (before ++ toString n).toList :=
    fun hm => absurd (around.front n _ hm) (by decide)
  rcases refused_or_substitute after options config with
    ⟨behind, kind, refused⟩ | ⟨dollar, substitute⟩
  · obtain ⟨e, group, he⟩ := refused _ groupFree
    obtain ⟨e', number, he'⟩ := refused _ numberFree
    exact .inl ⟨behind, e, e', group, number, he.trans he'.symm⟩
  · have flat := around.flat_written n
    obtain ⟨kind, u, hu⟩ := Leaf.classify_squeezeFrom (by rwa [String.ofList_toList]) dice
      fun a ha => (flat a ha).solid
    obtain ⟨front, back, readGroup, texts, joined⟩ := exists_reads_around around reads dollar hu
    have some : (before ++ toString n ++ after).toList ≠ [] := by
      rw [String.toList_append, String.toList_append, toList_toString]
      simp [(isInt_toDigits n).1]
    have plain : '$' ∉ (before ++ toString n ++ after).toList := by
      rw [String.toList_append, List.mem_append, not_or]
      exact ⟨fun hm => absurd (around.front n _ hm) (by decide), dollar⟩
    have readNumber := Formula.reads_leaf some flat plain rfl hu
    rw [String.ofList_toList] at readNumber
    have hq := create_of_reads (substitute _ groupFree) readGroup ho
    have hw := create_of_reads (substitute _ numberFree) readNumber ho
    refine .inr ⟨_, _, hq, hw, ?_⟩
    intro es fill
    -- the configuration is that of the context in which all are evaluated
    have reads : Formula.Reads (Context.mk config mode).config f r.terms := reads
    have h : create _ _ _ (Context.mk config mode).config = _ := h
    have hq : create _ _ _ (Context.mk config mode).config = _ := hq
    have hw : create _ _ _ (Context.mk config mode).config = _ := hw
    -- the draws for the formula are made, and its number takes the place of the group
    obtain ⟨vs, m, first, state⟩ := settlement_append h finished used es fill
    rw [show Report.state _ = _ from state] at total ⊢
    obtain rfl : m = x := Value.num.inj total
    have grouped := congrFun (settlement_around symbols reads texts) ⟨ds ++ es, fill, 0⟩
    rw [Drawing.bind_of_ok first, definedNumber_num (Number.isDefined_of_whole? whole)] at grouped
    simp only [Drawing.ofExcept_ok, pure_bind,
      joined m _ (Number.formulaText_of_whole? whole)] at grouped
    exact rollsLike_of_settlement hq hw rfl rfl grouped

/-- The group comes to three after two draws, and what follows them is rolled with three dice. -/
theorem evaluation_dynamic_flavored :
    ∃ r q w, create (.str "1d4[a] + (1d2)") .null .null .diceOnly = .ok r
      ∧ create (.str "(1d4[a] + (1d2))D6x>5[on  fire]") .null .null .diceOnly = .ok q
      ∧ create (.str "3D6x>5[on  fire]") .null .null .diceOnly = .ok w
      ∧ ∀ (es : List Float) (fill : Option Float),
        let first := (evaluation { config := .diceOnly } r).run .never ⟨[0.25, 0.5], some 0, 0⟩
        RollsLike 2 first.state.dice
          ((evaluation { config := .diceOnly } q).run .never ⟨[0.25, 0.5] ++ es, fill, 0⟩)
          ((evaluation { config := .diceOnly } w).run .never ⟨es, fill, 0⟩) := by
  let first (r : Roll) := (evaluation { config := .diceOnly } r).run .never ⟨[0.25, 0.5], some 0, 0⟩
  obtain ⟨r, h, hcheck⟩ := exists_of_create_any (.str "1d4[a] + (1d2)") .null .null .diceOnly
    (fun r => (first r).ending.isFinished && (first r).source.used == 2
      && (first r).state.total.int? == some 3)
    (by decide +kernel)
  obtain ⟨hcheck, total⟩ := Bool.and_eq_true_iff.1 hcheck
  obtain ⟨finished, used⟩ := Bool.and_eq_true_iff.1 hcheck
  obtain ⟨t, spelled, dice⟩ := exists_ok_of_any (p := Term.isDice)
    (x := Leaf.classify ("" ++ toString 3 ++ "D6x>5[on  fire]") .diceOnly false) (by decide +kernel)
  have around : Formula.DiceAround "" "D6x>5[on  fire]" :=
    .number rfl (.inr rfl) (by decide +kernel)
  rcases evaluation_dynamic (by decide +kernel) h (n := 3) rfl around spelled dice
    (Ending.eq_of_isFinished finished) (eq_of_beq used) (Value.eq_int (eq_of_beq total)) with
    ⟨symbol | dollar, -⟩ | ⟨q, w, hq, hw, alike⟩
  · exact absurd symbol (by decide +kernel)
  · exact absurd dollar (by decide +kernel)
  · exact ⟨r, q, w, h, hq, hw, alike⟩

end Roll

end DiceFormula
