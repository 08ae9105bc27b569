import DiceFormula.Proofs.Evaluation.Dealt
import DiceFormula.Proofs.Evaluation.Selecting

/-!
# Bounds of a term

A term is monotone if it cannot become less when something in it becomes more: a natural number, a
plus or times sign, dice or a pool of which results are kept and dropped, the smallest or largest of
some arguments, a group. What such terms are worth is a monotone function of what the formulas
inside them are worth. So once the extreme evaluations bound the rolls of these formulas, they bound
the term (`Term.bounds_evaluationBy`): wherever a random evaluation ends, the extreme ones end too,
with totals on either side of its own.
-/

namespace DiceFormula

variable {config : Config} {e : Extreme} {inner : RollEvaluation}

/-! ## Monotone terms -/

namespace Term

/-- Whether a term is made of what is monotone by itself, whatever stands in the formulas inside. -/
def isMonotone (t : Term) : Bool :=
  match t.body with
  | .number (.int n) => 0 ≤ n
  | .number (.float _) | .text _ => false
  | .operator s => s = .plus || s = .times
  | .group _ _ => true
  | .call fn _ _ _ => fn.str? == some "min" || fn.str? == some "max"
  | .pool _ _ hand => hand.modifiers.all (Modifier.selects Command.ofPools)
  | .dice d => d.kind != .fate && d.hand.modifiers.all (Modifier.selects (Command.ofKind d.kind))

/-- Both terms are the same operator, or worth natural numbers, the second one beyond the first. -/
inductive Beyond (e : Extreme) (t u : Term) : Prop
  | operator {s : Arithmetic.Sign} : t.sign? = some s → u.sign? = some s → s = .plus ∨ s = .times →
      Beyond e t u
  | value {n m : ℕ} : t.total = .ok (.int n) → u.total = .ok (.int m) → e.Beyond (· ≤ ·) n m →
      Beyond e t u

end Term

/-- Both rolls are worth natural numbers, the second one beyond the first. -/
def Roll.Beyond (e : Extreme) (r s : Roll) : Prop :=
  ∃ n m : ℕ, r.total = .int n ∧ s.total = .int m ∧ e.Beyond (· ≤ ·) n m

/-- The smallest and the largest of some arguments are called by their names. -/
structure Config.HasExtremes (config : Config) : Prop where
  min : config.functions.lookup "min" = some (.own .min)
  max : config.functions.lookup "max" = some (.own .max)

/-- The extreme evaluation bounds the random one of the roll of a formula. -/
def RollEvaluation.Bounds (inner : RollEvaluation) (config : Config) (e : Extreme)
    (formula : String) : Prop :=
  ∀ r, Roll.ofFormula (.str formula) config = .ok r →
    (inner { config } r).Bounds (Roll.Beyond e) (inner { config, mode := e.mode } r)

/-! ## Smallest and largest arguments -/

namespace Function

theorem extremeFrom_map_int {relation : Comparison} {op : ℕ → ℕ → ℕ}
    (hop : ∀ n m : ℕ, (if relation.ofNumbers (.int m) (.int n) then m else n) = op n m) (n : ℕ)
    (ns : List ℕ) :
    extremeFrom relation (.int n) (ns.map fun n : ℕ => Value.int n)
      = .ok (.int (ns.foldl op n : ℕ)) := by
  induction ns generalizing n with
  | nil => rfl
  | cons m ns ih =>
    have one : (if relation.ofNumbers (.int m) (.int n) then Value.int m else .int n)
        = .int (op n m : ℕ) := by
      rw [← hop n m]
      split <;> rfl
    rw [List.map_cons, extremeFrom, Comparison.holds_int, bind_ok, one, ih, List.foldl_cons]

theorem foldl_le_foldl {op : ℕ → ℕ → ℕ} (hop : ∀ n m k l, n ≤ m → k ≤ l → op n k ≤ op m l)
    {ns ms : List ℕ} (h : List.Forall₂ (· ≤ ·) ns ms) :
    ∀ {n m : ℕ}, n ≤ m → ns.foldl op n ≤ ms.foldl op m := by
  induction h with
  | nil => exact fun h => h
  | cons hk _ ih => exact fun h => ih (hop _ _ _ _ h hk)

/-- The smallest or the largest of some natural numbers, none of which counts for less if it is
more. -/
theorem exists_call {f : Function} (hf : f = min ∨ f = max) :
    ∃ g : List ℕ → ℕ, (∀ ns ms, List.Forall₂ (· ≤ ·) ns ms → g ns ≤ g ms)
      ∧ ∀ ns, ns ≠ [] → f.call (ns.map fun n : ℕ => Value.int n) = .ok (.int (g ns)) := by
  obtain ⟨relation, op, hr, hop, increasing⟩ : ∃ (relation : Comparison) (op : ℕ → ℕ → ℕ),
      (if f = min then Comparison.lt else .gt) = relation
        ∧ (∀ n m : ℕ, (if relation.ofNumbers (.int m) (.int n) then m else n) = op n m)
        ∧ ∀ n m k l : ℕ, n ≤ m → k ≤ l → op n k ≤ op m l := by
    rcases hf with rfl | rfl
    · refine ⟨.lt, (Min.min · ·), rfl, ?_, ?_⟩
      · intro n m
        simp only [Comparison.ofNumbers, Number.lt_int, decide_eq_true_eq]
        split <;> omega
      · exact fun n m k l => min_le_min
    · refine ⟨.gt, (Max.max · ·), rfl, ?_, ?_⟩
      · intro n m
        simp only [Comparison.ofNumbers, Number.lt_int, decide_eq_true_eq]
        split <;> omega
      · exact fun n m k l => max_le_max
  refine ⟨fun ns => ns.tail.foldl op (ns.headD 0), ?_, ?_⟩
  · intro ns ms h
    cases h with
    | nil => exact Nat.le_refl _
    | cons hn h => exact foldl_le_foldl increasing h hn
  · intro ns hne
    obtain ⟨n, ns, rfl⟩ := List.exists_cons_of_ne_nil hne
    have known : f.arityFault? ((n :: ns).map fun n : ℕ => Value.int n).length = none := by
      rcases hf with rfl | rfl <;> simp [arityFault?, arity?]
    have extremes : (f = min || f = max) = true := by simpa using hf
    rw [call, known]
    dsimp only
    rw [if_pos extremes, extreme, hr]
    simp only [List.map_cons, List.headD_cons, List.tail_cons, extremeFrom_map_int hop, bind_ok]
    rfl

end Function

/-! ## Formulas inside a term -/

namespace Roll

theorem total_propagateFlavor (flavor : Value) (r : Roll) :
    (r.propagateFlavor flavor).total = r.total := by
  unfold propagateFlavor
  split <;> rfl

/-- The totals of rolls that are bounded one by one. -/
theorem exists_totals {rs ss : List Roll} (h : List.Forall₂ (Beyond e) rs ss) :
    ∃ ns ms : List ℕ, rs.map total = ns.map (fun n : ℕ => Value.int n)
      ∧ ss.map total = ms.map (fun m : ℕ => Value.int m)
      ∧ List.Forall₂ (e.Beyond (· ≤ ·)) ns ms := by
  induction h with
  | nil => exact ⟨[], [], rfl, rfl, .nil⟩
  | cons hr _ ih =>
    obtain ⟨n, m, hn, hm, beyond⟩ := hr
    obtain ⟨ns, ms, hns, hms, h⟩ := ih
    exact ⟨n :: ns, m :: ms, by simp [hn, hns], by simp [hm, hms], .cons beyond h⟩

/-- Totals that count as results. -/
theorem results_of_totals {α : Type} {value : α → Value} {rs : List Roll} {as : List α}
    (h : rs.map total = as.map value) :
    (rs.map fun r => ({ face := r.total } : DieResult)) = as.map fun a => { face := value a } := by
  have := congrArg (List.map fun v => ({ face := v } : DieResult)) h
  rwa [List.map_map, List.map_map] at this

end Roll

namespace Term

/-- The rolls of a call take over its flavor. -/
theorem addRolls_call {flavored : Bool} {fn : Value} {args : List String} {result : Value}
    {l : Label} {carried : List Term} (rs : List Roll) :
    ∀ rolls : List Roll, addRolls flavored rs ⟨.call fn args rolls result, l, carried⟩
      = ⟨.call fn args
          (rolls ++ rs.map fun r => if flavored then r.propagateFlavor l.options.flavor else r)
          result, l, carried⟩ := by
  induction rs with
  | nil => exact fun rolls => by simp [addRolls]
  | cons r rs ih =>
    intro rolls
    rw [addRolls, List.foldl_cons]
    refine (ih _).trans ?_
    rw [List.map_cons, List.append_assoc]
    rfl

/-- What a call does to the rolls of its arguments changes nothing about their totals. -/
theorem exists_addRolls_call {flavored : Bool} {fn : Value} {args : List String} {result : Value}
    {l : Label} {carried : List Term} (rs rolls : List Roll) :
    ∃ added : List Roll, added.map Roll.total = rs.map Roll.total
      ∧ addRolls flavored rs ⟨.call fn args rolls result, l, carried⟩
        = ⟨.call fn args (rolls ++ added) result, l, carried⟩ := by
  refine ⟨_, ?_, addRolls_call rs rolls⟩
  rw [List.map_map]
  refine List.map_congr_left ?_
  intro r _
  cases flavored with
  | false => rfl
  | true => exact Roll.total_propagateFlavor _ r

theorem addRolls_pool {args : List String} {l : Label} {carried : List Term} (rs : List Roll) :
    ∀ (rolls : List Roll) (hand : Hand), addRolls false rs ⟨.pool args rolls hand, l, carried⟩
      = ⟨.pool args (rolls ++ rs)
          { hand with results := hand.results ++ rs.map fun r => { face := r.total } },
          l, carried⟩ := by
  induction rs with
  | nil => exact fun rolls hand => by simp [addRolls]
  | cons r rs ih =>
    intro rolls hand
    rw [addRolls, List.foldl_cons]
    exact (ih _ _).trans (by simp)

theorem bounds_evaluateFormula {s : String} (h : inner.Bounds config e s) (t : Term) :
    (evaluateFormula inner { config } (.str s) t).Ends .fair fun _ u r => u = t
      ∧ ∃ r', r.Beyond e r' ∧ ∀ t',
        (evaluateFormula inner { config, mode := e.mode } (.str s) t').ComesTo t' r' := by
  cases hq : Roll.ofFormula (.str s) config with
  | error e =>
    refine Steps.Ends.mono (ends_evaluateFormula (R := fun _ _ => False) ?_ t)
      fun _ _ _ h => h.2.elim
    rw [hq]
    exact trivial
  | ok q =>
    refine (ends_evaluateFormula (R := fun _ r => ∃ r', r.Beyond e r'
      ∧ (inner { config, mode := e.mode } q).ComesTo r' ()) ?_ t).mono ?_
    · rw [hq]
      exact h q hq
    · rintro k u r ⟨rfl, r', beyond, hr'⟩
      refine ⟨rfl, r', beyond, fun t' => ?_⟩
      refine ends_evaluateFormula (R := fun _ r => r = r') ?_ t'
      rw [hq]
      exact Steps.Ends.mono hr' fun _ _ _ h => h.1

/-- The rolls that are added to a term are bounded one by one. -/
theorem bounds_evaluateMembers {flavored : Bool} :
    ∀ {args : List String}, (∀ a ∈ args, inner.Bounds config e a) → ∀ t : Term,
      (evaluateMembers inner { config } flavored args t).Ends .fair fun _ u _ =>
        ∃ rs rs', u = t.addRolls flavored rs ∧ List.Forall₂ (Roll.Beyond e) rs rs'
          ∧ ∀ t', (evaluateMembers inner { config, mode := e.mode } flavored args t').ComesTo
              (t'.addRolls flavored rs') ()
  | [], _, t => ⟨[], [], rfl, .nil, fun t' => ⟨rfl, rfl⟩⟩
  | a :: args, h, t => by
    obtain ⟨ha, hargs⟩ := List.forall_mem_cons.1 h
    refine (bounds_evaluateFormula ha t).bind ?_
    rintro k u r ⟨rfl, r', beyond, hr⟩
    refine (bounds_evaluateMembers hargs _).mono ?_
    rintro n v - ⟨rs, rs', rfl, hrs, ends⟩
    refine ⟨r :: rs, r' :: rs', rfl, .cons beyond hrs, ?_⟩
    intro t'
    exact (hr t').bind (ends _)

/-! ## Terms -/

/-- The total of the results of a hand. -/
theorem exists_totalOf {rs ss : List DieResult} (h : e.Beyond DieResult.Below rs ss) :
    ∃ n m : ℕ, totalOf true rs = .ok (.int n) ∧ totalOf true ss = .ok (.int m)
      ∧ e.Beyond (· ≤ ·) n m := by
  obtain ⟨hr, hs⟩ := h.natural
  refine ⟨_, _, ?_, ?_, h.imp (fun rs => (DieResult.shown rs).sum) fun _ _ h => h.sum_le⟩
  · rw [totalOf, if_pos rfl, DieResult.total_eq_sum hr]
    rfl
  · rw [totalOf, if_pos rfl, DieResult.total_eq_sum hs]
    rfl

theorem bounds_evaluateGroup {s : String} (h : inner.Bounds config e s) (l : Label)
    (carried : List Term) :
    (evaluateGroup inner { config } (.str s) none ⟨.group (.str s) none, l, carried⟩).Bounds
      (Beyond e)
      (evaluateGroup inner { config, mode := e.mode } (.str s) none
        ⟨.group (.str s) none, l, carried⟩) := by
  have total (r : Roll) (flavor : Value) : Term.total
      ⟨.group (.str s) (some (r.propagateFlavor flavor)), l, carried⟩ = .ok r.total := by
    rw [← r.total_propagateFlavor flavor]
    rfl
  refine (bounds_evaluateFormula h _).bind ?_
  rintro k _ r ⟨rfl, r', ⟨n, m, hn, hm, beyond⟩, ends⟩
  refine ⟨_, .value ((total r _).trans (congrArg _ hn)) ((total r' _).trans (congrArg _ hm)) beyond,
    (ends _).bind ⟨rfl, rfl⟩⟩

theorem bounds_evaluateCall (extremes : config.HasExtremes) {fn : Value}
    (hfn : fn.str? = some "min" ∨ fn.str? = some "max") {args : List String}
    (h : ∀ a ∈ args, inner.Bounds config e a) (result : Value) (l : Label) (carried : List Term) :
    (evaluateCall inner { config } fn args ⟨.call fn args [] result, l, carried⟩).Bounds (Beyond e)
      (evaluateCall inner { config, mode := e.mode } fn args
        ⟨.call fn args [] result, l, carried⟩) := by
  obtain ⟨f, known, hf⟩ : ∃ f, config.function fn = .ok (.own f) ∧ (f = .min ∨ f = .max) := by
    rcases hfn with hfn | hfn
    · exact ⟨.min, by simp [Config.function, hfn, extremes.min], .inl rfl⟩
    · exact ⟨.max, by simp [Config.function, hfn, extremes.max], .inr rfl⟩
  obtain ⟨g, increasing, call⟩ := Function.exists_call hf
  unfold Steps.Bounds
  simp only [evaluateCall, known, Task.bind_apply, Task.ofExcept_ok, Steps.bind]
  refine (bounds_evaluateMembers h _).bind ?_
  rintro k _ - ⟨rs, rs', rfl, hrs, ends⟩
  obtain ⟨added, totals, hadded⟩ := @exists_addRolls_call true fn args result l carried rs []
  obtain ⟨added', totals', hadded'⟩ := @exists_addRolls_call true fn args result l carried rs' []
  obtain ⟨ns, ms, hns, hms, beyond⟩ := Roll.exists_totals hrs
  have ends := ends ⟨.call fn args [] result, l, carried⟩
  rw [hadded'] at ends
  simp only [hadded, List.nil_append, Task.get_apply, Steps.bind, rolls, applyFunction, totals, hns]
  cases hv : f.call (ns.map fun n : ℕ => Value.int n) with
  | error e => exact trivial
  | ok v =>
    have some : ns ≠ [] := by
      rintro rfl
      rcases hf with rfl | rfl <;> cases hv
    have some' : ms ≠ [] := by
      rintro rfl
      cases beyond
      exact some rfl
    obtain rfl := Except.ok.inj ((call ns some).symm.trans hv)
    refine ⟨⟨.call fn args added' (.int (g ms)), l, carried⟩,
      .value rfl rfl ((Extreme.beyond_forall₂ beyond).imp g increasing), ends.bind ?_⟩
    simp only [List.nil_append, totals', hms, call ms some']
    exact ⟨rfl, rfl⟩

theorem bounds_evaluatePool {args : List String} (h : ∀ a ∈ args, inner.Bounds config e a)
    {hand : Hand} (empty : hand.results = [])
    (hm : hand.modifiers.all (Modifier.selects Command.ofPools) = true) {l : Label}
    (mark : l.mark.truthy = true) (carried : List Term) :
    (evaluatePool inner { config } args ⟨.pool args [] hand, l, carried⟩).Bounds (Beyond e)
      (evaluatePool inner { config, mode := e.mode } args ⟨.pool args [] hand, l, carried⟩) := by
  unfold Steps.Bounds
  simp only [evaluatePool, Task.bind_apply]
  refine (bounds_evaluateMembers h _).bind ?_
  rintro k _ - ⟨rs, rs', rfl, hrs, ends⟩
  have ends := ends ⟨.pool args [] hand, l, carried⟩
  obtain ⟨ns, ms, hns, hms, beyond⟩ := Roll.exists_totals hrs
  rw [addRolls_pool, empty, List.nil_append, List.nil_append, Roll.results_of_totals hms] at ends
  rw [addRolls_pool, empty, List.nil_append, List.nil_append, Roll.results_of_totals hns]
  have below := (Extreme.beyond_forall₂ beyond).imp (List.map DieResult.ofPoints)
    fun _ _ => DieResult.Below.of_forall₂
  refine Steps.Ends.mapState (Steps.Ends.mono (Hand.bounds_carryOutModifiers Hand.performs_onPool
    Hand.performs_onPool { hand with results := ns.map DieResult.ofPoints }
    { hand with results := ms.map DieResult.ofPoints } hm rfl below) ?_)
  rintro n s - ⟨t, beyond, carried⟩
  obtain ⟨n, m, hn, hm, h⟩ := exists_totalOf beyond
  refine ⟨_, .value ?_ ?_ h, ends.bind carried.mapState⟩
  · rw [← hn, ← mark]
    rfl
  · rw [← hm, ← mark]
    rfl

theorem bounds_evaluateDice {d : Dice} (hk : d.kind ≠ .fate) (empty : d.hand.results = [])
    (hm : d.hand.modifiers.all (Modifier.selects (Command.ofKind d.kind)) = true) {l : Label}
    (mark : l.mark.truthy = true) (carried : List Term) :
    (withHand (d.roll { config }) ⟨.dice d, l, carried⟩).Bounds (Beyond e)
      (withHand (d.roll { config, mode := e.mode }) ⟨.dice d, l, carried⟩) := by
  refine Steps.Bounds.mapState (Steps.Ends.mono (Dice.bounds_roll e hk hm empty) ?_)
  rintro n s - ⟨t, beyond, ends⟩
  obtain ⟨n, m, hn, hm, h⟩ := exists_totalOf beyond
  refine ⟨t, .value ?_ ?_ h, ends⟩
  · rw [← hn, ← mark]
    rfl
  · rw [← hm, ← mark]
    rfl

/-- **The content of a monotone term is bounded by its extremes.** -/
theorem bounds_evaluateBody (extremes : config.HasExtremes) {t : Term} (monotone : t.isMonotone)
    (unrolled : t.body.Unrolled) (empty : t.hand.results = [])
    (h : ∀ a ∈ t.formulas, inner.Bounds config e a) :
    (evaluateBody inner { config } t.body (t.setMark (.bool true))).Bounds (Beyond e)
      (evaluateBody inner { config, mode := e.mode } t.body (t.setMark (.bool true))) := by
  obtain ⟨body, l, carried⟩ := t
  cases body with
  | number n =>
    cases n with
    | float x => cases monotone
    | int n =>
      obtain ⟨k, rfl⟩ := Int.eq_ofNat_of_zero_le (of_decide_eq_true monotone)
      exact ⟨_, .value rfl rfl (.refl (Nat.le_refl k)), rfl, rfl⟩
  | operator s =>
    have hs : s = .plus ∨ s = .times := by simpa [isMonotone] using monotone
    exact ⟨_, .operator rfl rfl hs, rfl, rfl⟩
  | text v => cases monotone
  | group source roll =>
    obtain ⟨⟨s, rfl⟩, rfl⟩ := unrolled
    exact bounds_evaluateGroup (h s (List.mem_singleton_self s)) _ _
  | call fn args rolls result =>
    obtain rfl : rolls = [] := unrolled
    have hfn : fn.str? = some "min" ∨ fn.str? = some "max" := by simpa [isMonotone] using monotone
    exact bounds_evaluateCall extremes hfn h _ _ _
  | pool args rolls hand =>
    obtain rfl : rolls = [] := unrolled
    exact bounds_evaluatePool h empty monotone rfl _
  | dice d =>
    obtain ⟨hk, hm⟩ := Bool.and_eq_true_iff.1 monotone
    exact bounds_evaluateDice (bne_iff_ne.1 hk) empty hm rfl _

/-- A monotone term that waits is bounded by its extremes. -/
theorem bounds_evaluationBy (extremes : config.HasExtremes) {t : Term} (monotone : t.isMonotone)
    (waits : t.evaluated = false) (unrolled : t.body.Unrolled) (empty : t.hand.results = [])
    (h : ∀ a ∈ t.formulas, inner.Bounds config e a) :
    (Term.evaluationBy inner { config } t).Bounds (Beyond e)
      (Term.evaluationBy inner { config, mode := e.mode } t) := by
  have text : ∀ v, t.body ≠ .text v := by
    intro v hv
    rw [isMonotone, hv] at monotone
    cases monotone
  refine ends_evaluationBy (fun v hv => absurd hv (text v)) waits
    (Steps.Ends.mono (bounds_evaluateBody extremes monotone unrolled empty h) ?_)
  rintro n u - ⟨u', beyond, ends⟩
  refine ⟨u', beyond, ?_⟩
  exact (ends_evaluationBy (Q := fun _ u => u = u') (fun v hv => absurd hv (text v)) waits
    (ends.mono fun _ _ _ h => h.1)).mono fun _ _ _ h => ⟨h, rfl⟩

end Term

end DiceFormula
