import DiceFormula.Roll.Create
import DiceFormula.Proofs.Evaluation.Visit
import DiceFormula.Proofs.Formula.Fresh

/-!
# Rolls that wait for their evaluation

A roll is built from a formula, and the number of its dice may then be altered as often as one
likes. All that the evaluation needs to know of such a roll is that it is `Waiting`: its terms are
fresh, and nothing has been settled yet (`Roll.Built.waiting`).
-/

namespace DiceFormula

/-- An engine with the standard dice and no functions. -/
def Config.diceOnly : Config :=
  { kinds := Config.defaultKinds, functions := [], maxDice := 1000, maxDiceText := .int 1000 }

variable {config : Config}

namespace Roll

/-- A roll of a formula, perhaps altered. -/
inductive Built (config : Config) : Roll → Prop
  | create {formula data options : Value} {r : Roll} :
      Roll.create formula data options config = .ok r → Built config r
  | alter {multiply add : Value} {r s : Roll} :
      Built config r → Roll.alter multiply add r = .done s () → Built config s

/-- A roll of fresh terms of which nothing has been settled. -/
structure Waiting (config : Config) (r : Roll) : Prop where
  terms : ∀ t ∈ r.terms, t.Fresh config
  nonempty : r.terms ≠ []
  dice : r.dice = []
  shared : r.shared = []
  sheet : r.sheet.Storable config
  state : r.sheet.state = .created

theorem Waiting.storable {r : Roll} (h : r.Waiting config) : r.Storable config := by
  obtain ⟨terms, dice, shared, sheet⟩ := r
  obtain ⟨ht, -, hd, -, hs, hstate⟩ := h
  obtain rfl : dice = [] := hd
  have state : sheet.state = .created := hstate
  refine ⟨hs, termsStorable_iff.2 fun t h => (ht t h).storable, trivial, ?_⟩
  rw [state]
  rfl

/-- A waiting roll comes back from its record as it was. -/
theorem Waiting.restored {r : Roll} (h : r.Waiting config) : r.restored = r := by
  obtain ⟨terms, dice, shared, formula, options, state, total, replayed, tag, _⟩ := r
  obtain ⟨ht, -, hd, hsh, hs, hstate⟩ := h
  obtain rfl : dice = [] := hd
  obtain rfl : shared = [] := hsh
  obtain rfl : state = .created := hstate
  have hreplayed : replayed = false := by
    rcases hs.state with h | h
    · cases h
    · exact h.2.2
  simp [Roll.restored, restoredTerms_of_fresh ht, restoredTerms, RollState.isEvaluated, hreplayed]

/-! ## Rolls of formulas -/

theorem formulaOf_ne_empty {ts : List Term} (h : ∀ t ∈ ts, t.Fresh config) (hne : ts ≠ []) :
    formulaOf ts ≠ "" := by
  cases ts with
  | nil => exact absurd rfl hne
  | cons t ts =>
    have := (h t List.mem_cons_self).written
    simp [formulaOf, Term.formulaText, this]

theorem waiting_ofTerms {ts : List Term} {options : Options} (h : ∀ t ∈ ts, t.Fresh config)
    (hne : ts ≠ []) : (ofTerms ts options config).Waiting config where
  terms := h
  nonempty := hne
  dice := rfl
  shared := rfl
  sheet := ⟨rfl, rfl, ⟨_, rfl, formulaOf_ne_empty h hne⟩, .inr ⟨rfl, rfl, rfl⟩⟩
  state := rfl

theorem waiting_of_create {formula data options : Value} {r : Roll}
    (h : create formula data options config = .ok r) : r.Waiting config := by
  obtain ⟨p, hp, h⟩ := bind_eq_ok.1 h
  obtain ⟨options, -, h⟩ := bind_eq_ok.1 h
  obtain rfl := Except.ok.inj h
  obtain ⟨hne, ht⟩ := Formula.fresh_of_parse hp
  exact waiting_ofTerms ht hne

/-- A roll of which a check can be computed. -/
theorem exists_of_create_any (formula data options : Value) (config : Config) (p : Roll → Bool)
    (h : (create formula data options config).toOption.any p = true) :
    ∃ r, create formula data options config = .ok r ∧ p r = true := exists_ok_of_any h

/-- The roll of a formula inside a term waits for its evaluation. -/
theorem waiting_of_ofFormula {formula : Value} {r : Roll} (h : ofFormula formula config = .ok r) :
    r.Waiting config := by
  obtain ⟨p, hp, h⟩ := bind_eq_ok.1 h
  obtain rfl := Except.ok.inj h
  obtain ⟨hne, ht⟩ := Formula.fresh_of_parse hp
  exact waiting_ofTerms ht hne

end Roll

/-! ## Alterations -/

theorem exists_int_of_alteredNumber {number multiply add v : Value}
    (h : alteredNumber number multiply add = .ok v) : ∃ n, v = .int n := by
  obtain ⟨factor, -, h⟩ := bind_eq_ok.1 h
  split at h
  · cases h
  · obtain ⟨scaled, -, h⟩ := bind_eq_ok.1 h
    exact ⟨_, (Except.ok.inj h).symm⟩

/-- Another number of dice leaves dice fresh. -/
theorem Term.Fresh.setNumber {d : Dice} {l : Label} {carried : List Term} {number : Value}
    (h : Term.Fresh config ⟨.dice d, l, carried⟩) (hn : ∃ n, number = .int n) :
    Term.Fresh config ⟨.dice { d with number }, l, carried⟩ := by
  obtain ⟨⟨hl, ⟨hd, hr⟩, hc⟩, hcarried, -, hmark, -⟩ := h
  exact ⟨⟨hl, ⟨⟨hd.known, hn, hd.faces, hd.hand⟩, hr⟩, hc⟩, hcarried, rfl, hmark,
    by simp [Term.written, Dice.written]⟩

theorem Term.meets_alter {multiply add : Value} {t : Term} (h : t.Fresh config) :
    (Term.alter multiply add t).Meets
      { seen := fun _ => False, left := fun _ => False, done := fun u _ => u.Fresh config
        fail := fun u _ => u.Fresh config } := by
  obtain ⟨body, l, carried⟩ := t
  cases body with
  | dice d =>
    simp only [Term.alter, Task.bind_apply, Task.get_apply, Steps.bind]
    split
    · exact h
    · refine Steps.Meets.bind (Q := fun s v => s = ⟨.dice d, l, carried⟩ ∧ ∃ n, v = .int n)
        (Task.meets_ofExcept (fun v hv => ⟨rfl, exists_int_of_alteredNumber hv⟩) fun _ _ => h)
        ?_
      rintro s v ⟨rfl, hv⟩
      exact h.setNumber hv
  | _ => exact h

namespace Roll

/-- A term without an identity is put back in its place only. -/
theorem putTerm_of_tag {i : Nat} {t : Term} (r : Roll) (h : t.label.tag = none) :
    putTerm i t r = replaceTerm i t r := by
  simp [putTerm, updateTag, h, replaceTerm]

/-- What is asked of a roll while one of its terms is worked on. -/
theorem meets_onTerm {c : Contract Roll Unit} {i : Nat} {t : Term} {task : Task Term Unit}
    {r : Roll} (ht : r.terms[i]? = some t)
    (h : (task t).Meets (c.pull fun part => putTerm i part r)) : (onTerm i t task r).Meets c := by
  refine Steps.Meets.mapState ?_
  simpa [ht] using h

theorem Waiting.replaceTerm {r : Roll} (h : r.Waiting config) {i : Nat} {t : Term}
    (ht : t.Fresh config) : (r.replaceTerm i t).Waiting config where
  terms := fun u hu => (List.mem_or_eq_of_mem_set hu).elim (h.terms u) fun e => e ▸ ht
  nonempty := fun e => h.nonempty (by simpa [Roll.replaceTerm] using e)
  dice := h.dice
  shared := h.shared
  sheet := h.sheet
  state := h.state

/-- The contract of an alteration: it does not pause, and the roll waits afterwards, also if the
alteration failed. -/
abbrev staysWaiting (config : Config) : Contract Roll Unit :=
  { seen := fun _ => False, left := fun _ => False, done := fun s _ => s.Waiting config
    fail := fun s _ => s.Waiting config }

theorem meets_alterFrom {multiply add : Value} (count i : Nat) {r : Roll}
    (h : r.Waiting config) :
    (alterFrom multiply add count i r).Meets (staysWaiting config) := by
  rw [alterFrom_eq]
  refine meets_visit (I := fun _ s => s.Waiting config) ?_ count h fun _ _ hs _ => hs
  intro i r t h ht
  have fresh := h.terms t (List.mem_of_getElem? ht)
  have put {u : Term} (hu : u.Fresh config) : (putTerm i u r).Waiting config := by
    rw [putTerm_of_tag r hu.storable.label.tag]
    exact h.replaceTerm hu
  unfold alterDice
  split
  · refine meets_onTerm ht ((Term.meets_alter fresh).mono ?_ ?_ ?_ ?_)
    · exact fun _ => False.elim
    · exact fun _ => False.elim
    · exact fun u _ hu => put hu
    · exact fun u _ hu => put hu
  · exact h

/-- An altered roll waits for its evaluation as before. -/
theorem meets_alter (multiply add : Value) {r : Roll} (h : r.Waiting config) :
    (alter multiply add r).Meets (staysWaiting config) := by
  have created : r.sheet.state.isCreated = true := by rw [h.state]; rfl
  simp only [alter, Task.bind_apply, Task.get_apply, Steps.bind, created]
  refine Steps.Meets.bind (Q := fun s _ => s.Waiting config) (meets_alterFrom _ 0 h) ?_
  intro s _ hs
  exact
    { terms := hs.terms
      nonempty := hs.nonempty
      dice := hs.dice
      shared := hs.shared
      sheet := ⟨hs.sheet.config, hs.sheet.tag, ⟨_, rfl, formulaOf_ne_empty hs.terms hs.nonempty⟩,
        hs.sheet.state⟩
      state := hs.state }

/-- What an alteration leaves of a waiting roll waits. -/
theorem Waiting.alter {r : Roll} (h : r.Waiting config) (multiply add : Value) (src : Source) :
    ((Roll.alter multiply add r).run .never src).state.Waiting config := by
  have allowed := Steps.allows_run .never (meets_alter multiply add h) src
  unfold Contract.Allows at allowed
  split at allowed
  · exact allowed
  · exact allowed.resolve_right id
  · exact allowed.elim

/-- **Every built roll waits for its evaluation.** -/
theorem Built.waiting {r : Roll} (h : r.Built config) : r.Waiting config := by
  induction h with
  | create h => exact waiting_of_create h
  | @alter multiply add r s _ h ih =>
    have := meets_alter multiply add ih
    rwa [h] at this

end Roll

end DiceFormula
