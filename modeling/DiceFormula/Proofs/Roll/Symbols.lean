import DiceFormula.Proofs.Formula.Splicing
import DiceFormula.Proofs.Roll.Arithmetic

/-!
# Formulas with integer symbols

A value is spliced into a formula as text, the text is read, groups are evaluated and printed, and
what is printed is read once more. A symbol for an integer is a single operand through all of this:
an expression is worth what it is when every symbol stands for its value
(`Roll.evaluation_symbols`), whatever the signs of the values and whatever stands around them.
-/

namespace DiceFormula

variable {config : Config}

open Symbols (Resolves tableOf)

/-- An expression of which all symbols lead to integers is read as a formula. What is read is a
plain text with the tokens of the expression with its values. -/
theorem Symbolic.exists_parse {ρ : List String → Int} {e : Symbolic} {data : Value}
    {formula : String} {before after : List Char} (proper : e.Proper)
    (resolves : ∀ names ∈ e.references, Resolves (tableOf data) names (ρ names))
    (hb : Blank.Gap before) (ha : Blank.Gap after)
    (text : formula.toList = before ++ (e.written ++ after)) :
    ∃ p s, Formula.parse (.str formula) data config = .ok p ∧ Arithmetic.IsPlain s.toList
      ∧ Arithmetic.lex s.toList = Arithmetic.lex (e.spliced ρ)
      ∧ ∃ fuel, Formula.readTerms config fuel s = .ok p.terms := by
  have replaced := substitute_written proper resolves hb ha
  rw [← text, String.ofList_toList] at replaced
  obtain ⟨ts, reads⟩ := @exists_reads config e ρ proper
  have spaced : Formula.normalize (String.ofList (before ++ (e.spliced ρ ++ after)))
      = String.ofList (Blank.normalize (e.spliced ρ)) := by
    rw [Formula.normalize_ofList, Blank.normalize_padded hb ha]
  have settled := Formula.reads_normalize.2 reads
  rw [Formula.normalize_ofList] at settled
  refine ⟨⟨String.ofList (Blank.normalize (e.spliced ρ)), ts⟩,
    String.ofList (Blank.normalize (e.spliced ρ)), ?_, ?_, ?_, settled⟩
  · simp only [Formula.parse, replaced, bind_ok, spaced, Formula.parseTerms_eq_ok.2 settled]
    rfl
  · rw [String.toList_ofList]
    exact isPlain_normalize (isPlain_spliced proper)
  · rw [String.toList_ofList, Arithmetic.lex_normalize]

namespace Roll

/-- **A symbol for an integer is a single operand.** An expression of integers, symbols and
parentheses whose symbols all lead to integers is read as a formula. If its divisions are exact the
roll draws nothing and comes to what the expression is worth, or it fails with a division by zero
where the expression is worth nothing. -/
theorem evaluation_symbols {ρ : List String → Int} {e : Symbolic} {data : Value} {formula : String}
    {before after : List Char} (proper : e.Proper)
    (resolves : ∀ names ∈ e.references, Resolves (tableOf data) names (ρ names))
    (hb : Blank.Gap before) (ha : Blank.Gap after)
    (text : formula.toList = before ++ (e.written ++ after)) :
    ∃ r, create (.str formula) data .null config = .ok r
      ∧ (e.Exact ρ → ∀ (mode : Mode) (src : Source),
          let report := (evaluation { config, mode } r).run .never src
          report.source = src
            ∧ ((∃ n, e.value ρ = some n ∧ report.ending = .finished ()
                ∧ report.state.total = .int n)
              ∨ e.value ρ = none ∧ ∃ err, report.ending = .failed err ∧ err.IsDivideByZero)) := by
  obtain ⟨p, s, hp, plain, tokens, fuel, hts⟩ :=
    @Symbolic.exists_parse config _ _ _ _ _ _ proper resolves hb ha text
  obtain ⟨d, hd, -, evaluates⟩ := exists_evaluates _ (Nat.lt_succ_self _) plain hts
  obtain ⟨d', h⟩ := (@Symbolic.derived ρ e proper).sum
  -- What the roll evaluates and what the expression says are derivations of the same tokens.
  obtain rfl : d = d' := Arithmetic.SumTree.eq_of_tokens_eq (hd.trans (tokens.trans h.tokens.symm))
  refine ⟨ofTerms p.terms [] config, by rw [create, hp]; rfl, ?_⟩
  intro exact mode src
  have below : GroupsBelow (ofTerms p.terms [] config).nesting p.terms :=
    groupsBelow_nesting (ofTerms p.terms [] config)
  have comes := evaluates (h.divides exact) mode (ofTerms p.terms [] config) _ rfl ⟨rfl, rfl⟩ below
  obtain ⟨source, ending⟩ := comes.run src
  rw [h.value] at ending
  refine ⟨source, ?_⟩
  rcases ending with ⟨_, finished, n, hn, total⟩ | ⟨err, failed, hnone, he⟩
  · exact .inl ⟨n, hn, finished, total⟩
  · exact .inr ⟨hnone, err, failed, he⟩

/-- Values from a list in a symbol table and from a mapping, a negative one among them. -/
theorem evaluation_symbols_nested :
    let data : Value := .mapping [("hero", .table (.mapping [("mods", .list [.int 7, .int 12])])),
      ("foe", .int (-4))]
    ∃ r, create (.str "-@hero.mods.1 / @foe + (2 - @foe) % 4") data .null .diceOnly = .ok r
      ∧ let report := (evaluation { config := .diceOnly } r).run .never ⟨[], none, 0⟩
        report.ending = .finished () ∧ report.state.total = .int 5 := by
  intro data
  let ρ : List String → Int := fun names => if names = ["foe"] then -4 else 12
  let foe : Symbolic := .reference ["foe"]
  let mod : Symbolic := .reference ["hero", "mods", "1"]
  let e : Symbolic := .binary (.signed .minus [] (.binary mod [' '] .divide [' '] foe)) [' '] .plus
    [' '] (.binary (.group [] (.binary (.literal ['2']) [' '] .minus [' '] foe) []) [' '] .modulo
      [' '] (.literal ['4']))
  have resolves : ∀ names ∈ e.references, Resolves (tableOf data) names (ρ names) := by
    have hero : Resolves (tableOf data) ["hero", "mods", "1"] 12 :=
      .entry rfl (.table nofun (.entry rfl (.item (Arithmetic.isInt_toDigits 1) rfl (.value 12))))
    have enemy : Resolves (tableOf data) ["foe"] (-4) := .entry rfl (.value (-4))
    exact List.forall_mem_cons.2 ⟨hero, List.forall_mem_cons.2 ⟨enemy,
      List.forall_mem_singleton.2 enemy⟩⟩
  obtain ⟨r, h, evaluates⟩ := @evaluation_symbols .diceOnly ρ e data _ [] [] (by decide +kernel)
    resolves Blank.gap_nil Blank.gap_nil
    (by decide +kernel : "-@hero.mods.1 / @foe + (2 - @foe) % 4".toList = _)
  obtain ⟨-, ending⟩ := evaluates (by decide +kernel) .random ⟨[], none, 0⟩
  have worth : e.value ρ = some 5 := by decide +kernel
  rcases ending with ⟨n, hn, finished, total⟩ | ⟨none, -⟩
  · obtain rfl := Option.some.inj (worth.symm.trans hn)
    exact ⟨r, h, finished, total⟩
  · rw [worth] at none
    cases none

end Roll

end DiceFormula
