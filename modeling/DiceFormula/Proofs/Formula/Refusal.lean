import DiceFormula.Proofs.Arithmetic.Failure
import DiceFormula.Proofs.Formula.Words
import DiceFormula.Roll.Create

/-!
# How formulas are refused

Everything that can be wrong with a formula is found when it is read, and is an error of the
library's own (`Formula.replies_parse`): a symbol without a value, brackets and operators that do
not match, a leaf that cannot stand where it does. An index that only looks like digits would be
another failure, but the names of symbols are plain letters and digits (`Symbols.replies_substitute`).
-/

namespace DiceFormula

/-! ## Symbols -/

namespace Digit

/-- A plain character that looks like a digit is one. -/
theorem exists_value_of_isDigit {c : Char} (plain : c.toNat < 128) (h : isDigit c = true) :
    ∃ n, value? c = some n := by
  have none : Toggle.mem formBoundaries c = false := Toggle.memFrom_of_lt (by omega)
  rw [isDigit, none, Bool.or_false] at h
  exact Option.isSome_iff_exists.1 h

theorem exists_readFrom {cs : List Char} (plain : ∀ c ∈ cs, c.toNat < 128)
    (h : ∀ c ∈ cs, isDigit c = true) : ∀ acc, ∃ n, readFrom? acc cs = some n := by
  induction cs with
  | nil => exact fun acc => ⟨acc, rfl⟩
  | cons c cs ih =>
    intro acc
    obtain ⟨hp, plain⟩ := List.forall_mem_cons.1 plain
    obtain ⟨hc, hcs⟩ := List.forall_mem_cons.1 h
    obtain ⟨d, hd⟩ := exists_value_of_isDigit hp hc
    rw [readFrom?, hd]
    exact ih plain hcs _

/-- Plain digits are a number. -/
theorem exists_readNat {cs : List Char} (plain : ∀ c ∈ cs, c.toNat < 128)
    (h : allDigits cs = true) : ∃ n, readNat? cs = some n := by
  obtain ⟨full, digits⟩ := Bool.and_eq_true_iff.1 h
  obtain ⟨n, hn⟩ := exists_readFrom plain (List.all_eq_true.1 digits) 0
  exact ⟨n, by rw [readNat?, if_neg (by simpa using full), hn]⟩

end Digit

theorem mem_of_mem_splitDots {cs key : List Char} {c : Char} (hk : key ∈ splitDots cs)
    (hc : c ∈ key) : c ∈ cs := by
  induction cs generalizing key with
  | nil =>
    obtain rfl := List.mem_singleton.1 hk
    exact hc
  | cons d cs ih =>
    unfold splitDots at hk
    cases hs : splitDots cs with
    | nil => exact absurd hs (splitDots_ne_nil cs)
    | cons p ps =>
      rw [hs] at hk
      dsimp only at hk
      have later {key : List Char} (hk : key ∈ p :: ps) (hc : c ∈ key) : c ∈ d :: cs :=
        List.mem_cons_of_mem _ (ih (hs ▸ hk) hc)
      split at hk
      · rcases List.mem_cons.1 hk with rfl | hk
        · cases hc
        · exact later hk hc
      · rcases List.mem_cons.1 hk with rfl | hk
        · rcases List.mem_cons.1 hc with rfl | hc
          · exact List.mem_cons_self
          · exact later List.mem_cons_self hc
        · exact later (List.mem_cons_of_mem _ hk) hc

namespace Symbols

theorem toNat_lt_of_isNameChar {c : Char} (h : isNameChar c = true) : c.toNat < 128 := by
  simp only [isNameChar, Char.isAlphanum, Bool.or_eq_true, beq_iff_eq] at h
  rcases h with ((letter | digit) | rfl) | rfl
  · have := Arithmetic.toNat_of_isAlpha letter
    omega
  · have := Arithmetic.toNat_of_isDigit digit
    omega
  · decide
  · decide

/-- Paths are plain. -/
theorem plain_takePath (fuel : Nat) (cs : List Char) :
    ∀ c ∈ (takePath fuel cs).1, c.toNat < 128 := by
  have name (cs : List Char) : ∀ c ∈ cs.takeWhile isNameChar, c.toNat < 128 :=
    fun c hc => toNat_lt_of_isNameChar (List.mem_takeWhile_imp hc)
  induction fuel generalizing cs with
  | zero => exact List.forall_mem_nil _
  | succ fuel ih =>
    unfold takePath
    dsimp only
    split
    · exact List.forall_mem_nil _
    · split
      · next r _ =>
        have rest := ih r
        split
        · exact name cs
        · next more r' _ hmore =>
          rw [hmore] at rest
          refine List.forall_mem_append.2 ⟨name cs, List.forall_mem_cons.2 ⟨by decide, ?_⟩⟩
          exact rest
      · exact name cs

theorem replies_step {path key : String} (plain : ∀ c ∈ key.toList, c.toNat < 128) (node : Value) :
    Replies (step path key node) := by
  fun_cases step path key node with
  | case1 => trivial
  | case2 | case5 => exact rfl
  | case3 index vs | case4 index vs =>
    dsimp only [index]
    split
    · next digits =>
      obtain ⟨n, hn⟩ := Digit.exists_readNat plain digits
      rw [hn]
      dsimp only
      split
      · trivial
      · exact rfl
    · exact rfl

theorem replies_walk {path : String} {keys : List String}
    (plain : ∀ key ∈ keys, ∀ c ∈ key.toList, c.toNat < 128) :
    ∀ node, Replies (walk path node keys) := by
  induction keys with
  | nil => exact fun _ => trivial
  | cons key keys ih =>
    intro node
    obtain ⟨hk, hks⟩ := List.forall_mem_cons.1 plain
    exact (replies_step hk _).bind fun v _ => ih hks v

theorem replies_lookup (data : Value) {path : String} (plain : ∀ c ∈ path.toList, c.toNat < 128) :
    Replies (lookup data path) := by
  refine (replies_walk ?_ data).bind fun v _ => ?_
  · intro key hkey c hc
    obtain ⟨cs, hcs, rfl⟩ := List.mem_map.1 hkey
    rw [String.toList_ofList] at hc
    exact plain c (mem_of_mem_splitDots hcs hc)
  · split
    · exact rfl
    · exact rfl
    · trivial

/-- **A symbol that cannot be replaced is refused by its path.** -/
theorem replies_substitute (data : Value) (formula : String) :
    Replies (substitute data formula) := by
  have characters (fuel : Nat) (cs : List Char) : Replies (substituteFrom data fuel cs) := by
    fun_induction substituteFrom data fuel cs with
    | case1 | case2 => trivial
    | case3 fuel c cs hc rest hpath ih => exact ih.bind fun _ _ => trivial
    | case4 fuel c cs hc path rest hne hpath ih =>
      have plain := plain_takePath (cs.length + 1) cs
      rw [hpath] at plain
      refine (replies_lookup data (by rwa [String.toList_ofList])).bind fun v _ => ?_
      exact ih.bind fun _ _ => trivial
    | case5 fuel c cs hc ih => exact ih.bind fun _ _ => trivial
  exact (characters _ _).bind fun _ _ => trivial

end Symbols

/-! ## Leaves and groups -/

theorem Leaf.replies_classify (text : String) (config : Config) (adjacent : Bool) :
    Replies (classify text config adjacent) := by
  have leaf (cs : List Char) : Replies (classify.leaf text config adjacent cs) := by
    unfold classify.leaf
    split
    · split
      · exact rfl
      · trivial
    · split
      · split
        · trivial
        · unfold ofDice
          dsimp only
          split
          · trivial
          · split
            · trivial
            · split
              · trivial
              · exact rfl
      · trivial
  unfold classify
  dsimp only
  split
  · split
    · trivial
    · exact leaf _
  · split
    · exact rfl
    · exact leaf _
  · exact leaf _

namespace Formula

theorem replies_ofParse {α : Type} (x : Except ParseFault α) : Replies (ofParse x) := by
  cases x with
  | ok a => trivial
  | error f => exact rfl

section

variable {config : Config} {check : String → Except Error Unit} (hcheck : ∀ s, Replies (check s))

include hcheck

theorem replies_groupTerm (g : Group) (s : Suffix) : Replies (groupTerm check config g s) := by
  have args : Replies (arguments g.inner) := by
    refine (replies_ofParse _).bind fun args _ => ?_
    split
    · exact rfl
    · trivial
  have checked (args : List String) : Replies (args.forM check) := by
    induction args with
    | nil => trivial
    | cons a args ih => exact (hcheck a).bind fun _ _ => ih
  unfold groupTerm
  dsimp only
  split
  · exact (hcheck _).bind fun _ _ => trivial
  · exact args.bind fun args _ => (checked args).bind fun _ _ => trivial
  · refine args.bind fun args _ => (checked args).bind fun _ _ => ?_
    split
    · exact rfl
    · trivial

theorem replies_segmentTerms (ss : List Segment) : Replies (segmentTerms check config ss) := by
  have leaf (as : List Atom) := Leaf.replies_classify (String.ofList (Atom.render as)) config true
  have group (g : Group) (s : Suffix) : Replies (groupTerm check config g s) :=
    replies_groupTerm hcheck g s
  fun_induction segmentTerms check config ss with
  | case1 => trivial
  | case2 as ss ih => exact (leaf as).bind fun _ _ => ih.bind fun _ _ => trivial
  | case3 g as ss s _ ih => exact (group g s).bind fun _ _ => ih.bind fun _ _ => trivial
  | case4 g as ss _ ih =>
    exact (group g {}).bind fun _ _ => (leaf as).bind fun _ _ => ih.bind fun _ _ => trivial
  | case5 g ss _ ih => exact (group g {}).bind fun _ _ => ih.bind fun _ _ => trivial

theorem replies_allTerms (ts : List FormulaToken) : Replies (allTerms check config ts) := by
  refine (Outcome.mapM (P := fun _ => True) fun token _ => ?_).bind fun _ _ => trivial
  unfold tokenTerms
  split
  · trivial
  · split
    · exact (Leaf.replies_classify _ _ _).bind fun _ _ => trivial
    · exact replies_segmentTerms hcheck _

end

/-! ## Formulas -/

theorem replies_readTerms (config : Config) (fuel : Nat) :
    ∀ formula, Replies (readTerms config fuel formula) := by
  induction fuel with
  | zero => exact fun _ => rfl
  | succ fuel ih =>
    intro formula
    unfold readTerms
    dsimp only
    split
    · exact rfl
    · split
      · exact rfl
      · refine (replies_ofParse _).bind fun ps _ => ?_
        refine (replies_allTerms (fun s => ?_) _).bind fun ts _ => replies_ofParse _
        exact (ih s).bind fun _ _ => trivial

/-- **A text that is no formula is refused** with an error of the library's own, whatever the data
are. -/
theorem replies_parse (text : String) (data : Value) (config : Config) :
    Replies (parse (.str text) data config) := by
  unfold parse parseTerms
  refine (Symbols.replies_substitute _ _).bind fun formula _ => ?_
  dsimp only
  -- a fuel that is a successor would be unfolded when the two sides are compared
  generalize (normalize formula).length + 1 = fuel
  exact (replies_readTerms config fuel (normalize formula)).bind fun _ _ => trivial

end Formula

namespace Roll

theorem replies_create (text : String) (data : Value) (config : Config) :
    Replies (create (.str text) data .null config) :=
  (Formula.replies_parse text data config).bind fun _ _ => trivial

theorem replies_ofFormula (text : String) (config : Config) :
    Replies (ofFormula (.str text) config) :=
  (Formula.replies_parse text .null config).bind fun _ _ => trivial

/-- Joining two terms can only fail as reading a leaf does. -/
theorem replies_fuse (left right : Term) (config : Config) : Replies (fuse left right config) :=
  (Leaf.replies_classify _ _ _).bind fun _ _ => trivial

theorem replies_simplify (config : Config) (ts : List Term) : Replies (simplify config ts) := by
  refine (Outcome.foldlM (I := fun _ => True) trivial fun done _ t _ => ?_).bind fun _ _ => trivial
  unfold joinTerm
  split
  · trivial
  · split
    · trivial
    · exact (replies_fuse _ _ _).bind fun _ _ => trivial

end Roll

end DiceFormula
