import DiceFormula.Proofs.Evaluation.Passes
import DiceFormula.Proofs.Formula.Alternation
import DiceFormula.Proofs.Formula.Nesting

/-!
# Joining neighbours

Once the groups and calls of a roll are numbers, `simplify` joins what still stands side by side.
It leaves values and operators in turn (`Roll.joins_simplify`), and every die that a term carries is
carried by a term afterwards, in the same order (`Roll.carried_of_simplify`). Terms that alternate
already stay as they are (`Roll.simplify_of_alternates`).
-/

namespace DiceFormula

variable {config : Config} {inner : RollEvaluation} {context : Context}

/-! ## Evaluated terms -/

/-- Groups and calls are no operators. -/
theorem Term.isOperator_of_isIntermediate {t : Term} (h : t.isIntermediate = true) :
    t.isOperator = false := by
  obtain ⟨body, l, carried⟩ := t
  cases body with
  | operator => cases h
  | _ => rfl

namespace Roll

/-- The number for a group or a call is made of the total. -/
theorem exists_of_numberFor {t n : Term} (h : numberFor t config = .ok n) :
    ∃ v number, t.total = .ok v ∧ definedNumber v = .ok number
      ∧ n = { Term.make (.number number) t.label.options config with
          carried := t.dice }.setMark (.bool true) := by
  obtain ⟨v, total, h⟩ := bind_eq_ok.1 h
  obtain ⟨number, defined, h⟩ := bind_eq_ok.1 h
  exact ⟨v, number, total, defined, (Except.ok.inj h).symm⟩

/-- The number for a group or a call is a value that can be joined. -/
theorem joined_of_numberFor {t n : Term} (h : numberFor t config = .ok n) : Leaf.Joined n := by
  obtain ⟨v, number, -, -, rfl⟩ := exists_of_numberFor h
  exact ⟨rfl, Term.joinable_number _ _ _ rfl⟩

/-- A number stands where the group or the call stood. -/
theorem replaces_of_numberFor {t u n : Term} (group : t.isIntermediate = true)
    (h : numberFor u config = .ok n) : Replaces t n :=
  (joined_of_numberFor h).value.trans (Term.isOperator_of_isIntermediate group).symm

/-- A term that is evaluated in its place stands in no other roll, and is an operator just if it was
one before. -/
theorem ends_replaces {t : Term} (tag : t.label.tag = none) :
    (Term.evaluationBy inner context t).Ends .any fun _ u _ =>
      u.label.tag = none ∧ Replaces t u := by
  refine (Term.ends_framed t).mono ?_
  rintro n u - ⟨⟨mark, label⟩, sign⟩
  refine ⟨by rw [label]; exact tag, ?_⟩
  rw [Replaces, Term.isOperator, sign]
  rfl

/-! ## Two neighbours -/

/-- A joined term is a leaf that carries the dice of both. -/
theorem exists_of_fuse {left right t : Term} (h : fuse left right config = .ok t) :
    ∃ u, Leaf.classify (left.written ++ right.formulaText) config false = .ok u
      ∧ t.body = u.body ∧ t.label.mark = u.label.mark
      ∧ t.carried = left.carried ++ right.carried := by
  obtain ⟨⟨body, l, carried⟩, hu, h⟩ := bind_eq_ok.1 h
  obtain rfl := Except.ok.inj h
  refine ⟨_, hu, ?_⟩
  split <;> exact ⟨rfl, rfl, rfl⟩

/-- Joining two neighbours gives a value, or fails because of a denomination. -/
theorem outcome_fuse {left right : Term} (hl : left.Joinable) (hr : right.Joinable) :
    Outcome Leaf.Joined (Error.IsNotDice config) (fuse left right config) := by
  have first := List.length_pos_of_ne_nil fun e => hl.written (String.toList_eq_nil_iff.1 e)
  have second := List.length_pos_of_ne_nil fun e => hr.written (String.toList_eq_nil_iff.1 e)
  have text : (left.written ++ right.formulaText).toList
      = left.written.toList ++ (right.written.toList ++ (Term.flavorText right.flavor).toList) := by
    simp [Term.formulaText]
  have joined : Outcome Leaf.Joined (fun e => false = false → e.IsNotDice config)
      (Leaf.classify (left.written ++ right.formulaText) config false) := by
    refine Leaf.outcome_classify ?_ ?_
    · rw [text, List.length_append, List.length_append]
      omega
    · -- a sign before a line break would be what the left one says alone
      intro c hc
      rw [text] at hc
      refine hl.sign c ?_
      have length := congrArg List.length hc
      simp only [List.length_append, List.length_cons, List.length_nil] at length
      rcases hw : left.written.toList with - | ⟨d, - | ⟨e, ds⟩⟩
      · rw [hw] at first
        cases first
      · rw [hw] at hc
        rw [(List.cons.inj hc).1]
      · rw [hw] at length
        simp only [List.length_cons] at length
        omega
  cases hu : Leaf.classify (left.written ++ right.formulaText) config false with
  | error e =>
    rw [hu] at joined
    rw [fuse, hu]
    exact joined rfl
  | ok u =>
    rw [hu] at joined
    obtain ⟨body, l, carried⟩ := u
    obtain ⟨value, tag, written, sign⟩ := joined
    rw [fuse, hu]
    dsimp only [bind_ok]
    split
    · exact ⟨value, tag, written, sign⟩
    · exact ⟨value, tag, written, sign⟩

/-- A joined term waits, and has the content of a leaf that was just read. -/
theorem fresh_of_fuse {left right t : Term} (hl : left.Joinable) (hr : right.Joinable)
    (h : fuse left right config = .ok t) :
    t.Joinable ∧ t.evaluated = false ∧ t.body.isLeaf = true
      ∧ ∃ u : Term, u.Fresh config ∧ t.body = u.body := by
  have joined := @outcome_fuse config left right hl hr
  rw [h] at joined
  obtain ⟨u, hu, body, mark, -⟩ := exists_of_fuse h
  have fresh := (Leaf.made_of_classify (by simp [hl.written]) hu).fresh
  refine ⟨joined.joinable, ?_, body ▸ Leaf.isLeaf_of_classify hu, u, fresh, body⟩
  rw [Term.evaluated, mark]
  exact fresh.waits

/-! ## All neighbours -/

/-- The terms so far, last one first, when the next value comes. -/
inductive Open : List Term → Prop
  | nil : Open []
  | value {ts : List Term} : Alternates ts → Open ts
  | operator {s : Term} {ts : List Term} : s.isOperator = true → Alternates ts → Open (s :: ts)

/-- What joining comes to: terms that alternate and can be joined, or a wrong denomination. -/
abbrev Joins (config : Config) : Except Error (List Term) → Prop :=
  Outcome (fun us => Alternates us ∧ ∀ u ∈ us, u.Joinable) (Error.IsNotDice config)

/-- A value is appended, or joined with the value before it. -/
theorem joins_joinTerm {done : List Term} {t : Term} (h : Open done)
    (hd : ∀ u ∈ done, u.Joinable) (value : t.isOperator = false) (ht : t.Joinable) :
    Joins config (joinTerm config done t) := by
  cases h with
  | nil => exact ⟨.value value, List.forall_mem_singleton.2 ht⟩
  | operator hs h =>
    rw [joinTerm, value, hs]
    exact ⟨.join value hs h, List.forall_mem_cons.2 ⟨ht, hd⟩⟩
  | value h =>
    obtain ⟨left, rest, rfl, hl, again⟩ := h.head
    obtain ⟨joinable, hrest⟩ := List.forall_mem_cons.1 hd
    rw [joinTerm, value, hl]
    refine (outcome_fuse joinable ht).bind ?_
    intro u hu
    exact ⟨again u hu.value, List.forall_mem_cons.2 ⟨hu.joinable, hrest⟩⟩

theorem joins_foldlM {ts : List Term} (h : Spaced ts) :
    ∀ {done : List Term}, Open done → (∀ u ∈ done, u.Joinable) → (∀ t ∈ ts, t.Joinable) →
      Joins config (ts.foldlM (joinTerm config) done) := by
  induction h with
  | value value =>
    intro done hopen hd hts
    have step := @joins_joinTerm config _ _ hopen hd value (hts _ List.mem_cons_self)
    rw [List.foldlM_cons]
    exact step.bind fun us hus => hus
  | beside value _ ih =>
    intro done hopen hd hts
    obtain ⟨ht, hts⟩ := List.forall_mem_cons.1 hts
    rw [List.foldlM_cons]
    exact (joins_joinTerm hopen hd value ht).bind fun us hus => ih (.value hus.1) hus.2 hts
  | @join t s ts value operator _ ih =>
    intro done hopen hd hts
    obtain ⟨ht, hts⟩ := List.forall_mem_cons.1 hts
    obtain ⟨hs, hts⟩ := List.forall_mem_cons.1 hts
    rw [List.foldlM_cons]
    refine (joins_joinTerm hopen hd value ht).bind ?_
    rintro us ⟨hus, joinable⟩
    have appended : joinTerm config us s = .ok (s :: us) := by
      cases us with
      | nil => cases hus
      | cons u us => rw [joinTerm, operator]; rfl
    rw [List.foldlM_cons, appended, bind_ok]
    exact ih (.operator operator hus) (List.forall_mem_cons.2 ⟨hs, joinable⟩) hts

/-- **Joining leaves values and operators in turn.** -/
theorem joins_simplify {ts : List Term} (h : Spaced ts) (hts : ∀ t ∈ ts, t.Joinable) :
    Joins config (simplify config ts) := by
  refine (joins_foldlM h .nil (List.forall_mem_nil _) hts).bind ?_
  rintro us ⟨hus, joinable⟩
  obtain ⟨t, rest, rfl, value, -⟩ := hus.head
  have kept : (t :: rest).dropWhile Term.isOperator = t :: rest := by
    rw [List.dropWhile_cons_of_neg (by simp [value])]
  show Joins config (.ok _)
  rw [kept]
  exact ⟨hus.reverse, fun u hu => joinable u (List.mem_reverse.1 hu)⟩

/-- What all terms have and joining keeps, all joined terms have. -/
theorem forall_of_simplify {P : Term → Prop} {ts us : List Term} (hts : ∀ t ∈ ts, P t)
    (hf : ∀ left right t, P left → P right → fuse left right config = .ok t → P t)
    (h : simplify config ts = .ok us) : ∀ u ∈ us, P u := by
  obtain ⟨reversed, hr, h⟩ := bind_eq_ok.1 h
  obtain rfl := Except.ok.inj h
  intro u hu
  have := (List.dropWhile_sublist _).subset (List.mem_reverse.1 hu)
  refine of_foldlM_eq_ok (I := fun ts => ∀ t ∈ ts, P t) hr (List.forall_mem_nil _) ?_ u this
  intro t ht done joined hd hj
  unfold joinTerm at hj
  split at hj
  · obtain rfl := Except.ok.inj hj
    exact List.forall_mem_singleton.2 (hts t ht)
  · split at hj
    · obtain rfl := Except.ok.inj hj
      exact List.forall_mem_cons.2 ⟨hts t ht, hd⟩
    · obtain ⟨u, hu, hj⟩ := bind_eq_ok.1 hj
      obtain rfl := Except.ok.inj hj
      obtain ⟨hl, hrest⟩ := List.forall_mem_cons.1 hd
      exact List.forall_mem_cons.2 ⟨hf _ _ _ hl (hts t ht) hu, hrest⟩

/-- The dice that some terms carry. -/
abbrev carriedOf (ts : List Term) : List Term := ts.flatMap Term.carried

/-- Joined from the front, the terms carry what those read so far did. -/
theorem carried_of_foldlM {ts : List Term} : ∀ {done reversed : List Term},
    ts.foldlM (joinTerm config) done = .ok reversed →
      carriedOf reversed.reverse = carriedOf done.reverse ++ carriedOf ts := by
  induction ts with
  | nil =>
    intro done reversed h
    obtain rfl := Except.ok.inj h
    simp
  | cons t ts ih =>
    intro done reversed h
    rw [List.foldlM_cons, bind_eq_ok] at h
    obtain ⟨joined, hj, h⟩ := h
    have step : carriedOf joined.reverse = carriedOf done.reverse ++ t.carried := by
      unfold joinTerm at hj
      split at hj
      · obtain rfl := Except.ok.inj hj
        simp
      · split at hj
        · obtain rfl := Except.ok.inj hj
          simp
        · obtain ⟨u, hu, hj⟩ := bind_eq_ok.1 hj
          obtain rfl := Except.ok.inj hj
          obtain ⟨-, -, -, -, hc⟩ := exists_of_fuse hu
          simp [hc]
    rw [ih h, step]
    simp

/-- **No carried die is lost or doubled** where terms are joined. -/
theorem carried_of_simplify {ts us : List Term} (spaced : Spaced ts)
    (joinable : ∀ t ∈ ts, t.Joinable) (h : simplify config ts = .ok us) :
    carriedOf us = carriedOf ts := by
  obtain ⟨reversed, hr, h⟩ := bind_eq_ok.1 h
  obtain rfl := Except.ok.inj h
  have joins := @joins_foldlM config ts spaced [] .nil (List.forall_mem_nil _) joinable
  rw [hr] at joins
  obtain ⟨t, rest, rfl, value, -⟩ := joins.1.head
  rw [List.dropWhile_cons_of_neg (by simp [value])]
  simpa using carried_of_foldlM hr

/-- Terms that alternate are joined already. -/
theorem simplify_of_alternates {ts : List Term} (h : Alternates ts) :
    simplify config ts = .ok ts := by
  -- where a value comes next, nothing that it could be joined with stands before it
  have fold : ∀ done, (∀ s ∈ done.head?, s.isOperator = true) →
      ts.foldlM (joinTerm config) done = .ok (ts.reverse ++ done) := by
    induction h with
    | @value t ht =>
      intro done hd
      cases done with
      | nil => rfl
      | cons s done => simp [joinTerm, hd s rfl]
    | @join t s ts ht hs _ ih =>
      intro done hd
      have value : joinTerm config done t = .ok (t :: done) := by
        cases done with
        | nil => rfl
        | cons s done => simp [joinTerm, hd s rfl]
      have operator : joinTerm config (t :: done) s = .ok (s :: t :: done) := by
        simp [joinTerm, hs]
      rw [List.foldlM_cons, value, bind_ok, List.foldlM_cons, operator, bind_ok,
        ih _ (by simpa using hs)]
      simp
  obtain ⟨t, rest, hr, value, -⟩ := h.reverse.head
  rw [simplify, fold [] (by simp), List.append_nil, bind_ok, hr,
    List.dropWhile_cons_of_neg (by simp [value]), ← hr, List.reverse_reverse]
  rfl

end Roll

end DiceFormula
