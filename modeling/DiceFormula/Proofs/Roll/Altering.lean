import DiceFormula.Proofs.Roll.Built

/-!
# What an alteration does

An alteration of a roll goes through its dice terms in order, and it fails at the first one that
refuses: dice that were rolled before, or a number that no double can hold. What it did up to there
stays, and the formula is only printed at the end, so that a refusal of a later term leaves a roll
whose formula is not that of its terms (`Roll.alter_of_rolled_behind`). If at most the first dice term
refuses, then an alteration is made as a whole or not at all, and the formula stays that of the terms
however often the roll is altered (`Roll.alters_whole_or_not`).

A term may stand at several places of a roll, and an alteration alters it once for each of them
(`Roll.alterations`). What the alterations of the places before some place have made of the roll is
`Roll.AlteredBefore`.
-/

namespace DiceFormula

variable {config : Config} {multiply add : Value}

/-! ## Terms -/

namespace Term

/-- An alteration sets the number of dice that were not rolled yet. -/
theorem alter_eq_done {t u : Term} (h : alter multiply add t = .done u ()) :
    ∃ d number, t.body = .dice d ∧ t.evaluated = false
      ∧ alteredNumber d.number multiply add = .ok number
      ∧ u = { t with body := .dice { d with number } } := by
  obtain ⟨body, l, carried⟩ := t
  cases body with
  | dice d =>
    simp only [alter, Task.bind_apply, Task.get_apply, Steps.bind] at h
    split at h
    · cases h
    · next waits =>
      cases altered : alteredNumber d.number multiply add with
      | error e =>
        rw [altered] at h
        cases h
      | ok number =>
        rw [altered] at h
        cases h
        exact ⟨d, number, rfl, Bool.eq_false_iff.2 waits, altered, rfl⟩
  | _ => cases h

/-- An alteration does not pause, and a term that refuses it stays as it is. -/
theorem alter_done_or_fail (multiply add : Value) (t : Term) :
    (∃ u, alter multiply add t = .done u ()) ∨ ∃ e, alter multiply add t = .fail t e := by
  obtain ⟨body, l, carried⟩ := t
  cases body with
  | dice d =>
    simp only [alter, Task.bind_apply, Task.get_apply, Steps.bind]
    split
    · exact .inr ⟨_, rfl⟩
    · cases alteredNumber d.number multiply add with
      | error e => exact .inr ⟨e, rfl⟩
      | ok number => exact .inl ⟨_, rfl⟩
  | _ => exact .inr ⟨_, rfl⟩

/-- What becomes of a term that is altered so many times. -/
inductive AlteredTimes (multiply add : Value) : Nat → Term → Term → Prop
  | zero (t : Term) : AlteredTimes multiply add 0 t t
  | succ {n : Nat} {t u v : Term} (before : AlteredTimes multiply add n t u)
      (last : alter multiply add u = .done v ()) : AlteredTimes multiply add (n + 1) t v

namespace AlteredTimes

variable {n : Nat} {t u v : Term}

theorem label (h : AlteredTimes multiply add n t u) : u.label = t.label := by
  induction h with
  | zero => rfl
  | succ _ last ih =>
    obtain ⟨d, number, -, -, -, rfl⟩ := alter_eq_done last
    exact ih

theorem isDice (h : AlteredTimes multiply add n t u) : u.isDice = t.isDice := by
  induction h with
  | zero => rfl
  | succ _ last ih =>
    obtain ⟨d, number, body, -, -, rfl⟩ := alter_eq_done last
    rw [← ih]
    simp [Term.isDice, body]

theorem unique (h : AlteredTimes multiply add n t u) (h' : AlteredTimes multiply add n t v) :
    u = v := by
  induction h generalizing v with
  | zero =>
    cases h'
    rfl
  | succ _ last ih =>
    cases h' with
    | succ before last' =>
      obtain rfl := ih before
      cases last.symm.trans last'
      rfl

end AlteredTimes

/-- Whether two terms are the same one: both have the same identity. -/
def isSame (t u : Term) : Bool := t.label.tag.isSome && u.label.tag == t.label.tag

theorem isSame_of_label {t t' u u' : Term} (ht : t'.label = t.label) (hu : u'.label = u.label) :
    t'.isSame u' = t.isSame u := by
  simp [isSame, ht, hu]

end Term

/-! ## Terms without an identity -/

/-- What makes terms without an identity, unless it fails. -/
abbrev Untagged (x : Except Error Term) : Prop :=
  Outcome (fun t => t.label.tag = none) (fun _ => True) x

theorem untagged_bind {α : Type} {x : Except Error α} {f : α → Except Error Term}
    (h : ∀ a, Untagged (f a)) : Untagged (x >>= f) := by
  cases x with
  | ok a => exact h a
  | error e => trivial

namespace Term

theorem untagged_ofKnownArguments (readRoll : Value → Except Error Roll) (c : TermClass)
    (args : Arguments) (config : Config) : Untagged (ofKnownArguments readRoll c args config) := by
  cases c with
  | number => exact untagged_bind fun _ => untagged_bind fun _ => untagged_bind fun _ => rfl
  | operator => exact untagged_bind fun _ => untagged_bind fun _ => untagged_bind fun _ => rfl
  | text => exact untagged_bind fun _ => untagged_bind fun _ => rfl
  | group =>
    refine untagged_bind fun _ => ?_
    split
    · trivial
    · rfl
    · trivial
  | call => exact untagged_bind fun _ => untagged_bind fun _ => untagged_bind fun _ => rfl
  | pool =>
    exact untagged_bind fun _ => untagged_bind fun _ => untagged_bind fun _ =>
      untagged_bind fun _ => untagged_bind fun _ => untagged_bind fun _ => rfl
  | dice kind => exact untagged_bind fun _ => untagged_bind fun _ => untagged_bind fun _ => rfl

theorem untagged_setMark {x : Except Error Term} (h : Untagged x) (mark : Term → Value) :
    Untagged (do let t ← x; return t.setMark (mark t)) := h.bind fun _ ht => ht

/-- Terms of records have no identity. -/
theorem untagged_restore (readRoll : Value → Except Error Roll) (c : TermClass) (record : Value)
    (config : Config) : Untagged (restore readRoll c record config) := by
  cases c with
  | dice kind => exact untagged_setMark (untagged_ofKnownArguments _ _ _ _) _
  | group =>
    simp only [restore, restoreGroup]
    split
    · exact untagged_setMark (untagged_ofKnownArguments _ _ _ _) _
    · exact untagged_bind fun _ => untagged_bind fun _ => rfl
  | call =>
    refine (untagged_ofKnownArguments readRoll .call _ config).bind fun t ht => ?_
    refine untagged_bind fun _ => untagged_bind fun _ => ?_
    split
    · exact ht
    · exact ht
  | number => exact untagged_setMark (untagged_ofKnownArguments _ _ _ _) _
  | operator => exact untagged_setMark (untagged_ofKnownArguments _ _ _ _) _
  | text => exact untagged_setMark (untagged_ofKnownArguments _ _ _ _) _
  | pool => exact untagged_setMark (untagged_ofKnownArguments _ _ _ _) _

theorem untagged_readRecord (config : Config) (fuel : Nat) (record : Value) :
    Untagged (readRecord config fuel record) := by
  cases fuel with
  | zero => trivial
  | succ fuel => exact untagged_bind fun c => untagged_restore _ c record config

end Term

/-! ## Places -/

namespace Roll

/-- How often an alteration of the terms at the first `n` places alters the one at place `i`: once for
every one of them that is dice and the same term. -/
def alterations (ts : List Term) (n i : Nat) : Nat :=
  (List.range n).countP fun j =>
    (ts[j]?).any fun t => t.isDice && (j == i || (ts[i]?).any t.isSame)

theorem alterations_succ (ts : List Term) (n i : Nat) :
    alterations ts (n + 1) i = alterations ts n i
      + if (ts[n]?).any fun t => t.isDice && (n == i || (ts[i]?).any t.isSame) then 1 else 0 := by
  rw [alterations, List.range_succ, List.countP_append, List.countP_singleton]
  rfl

/-- Terms of one identity are one term, wherever they stand. -/
def Coherent (r : Roll) : Prop :=
  ∀ t ∈ r.terms, ∀ u, u ∈ r.terms ∨ u ∈ r.shared → t.isSame u = true → u = t

/-! ### Putting a term back -/

section

variable {r : Roll} {i : Nat} {t u v : Term}

theorem updateTag_eq_map (v : Term) (ts : List Term) :
    updateTag v ts = ts.map fun w => if v.isSame w then v else w := by
  unfold updateTag
  cases htag : v.label.tag with
  | none => simp [Term.isSame, htag]
  | some n => simp [Term.isSame, htag]

/-- A term that is put back stands in its place and wherever the same term stood. -/
theorem getElem?_putTerm (i k : Nat) (v : Term) (r : Roll) :
    (putTerm i v r).terms[k]?
      = (r.terms[k]?).map fun w => if i == k || v.isSame w then v else w := by
  simp only [putTerm, updateTag_eq_map, List.getElem?_set, List.length_map, List.getElem?_map]
  by_cases place : i = k
  · subst place
    by_cases inside : i < r.terms.length
    · simp [inside]
    · simp [inside]
  · simp [place]

theorem mem_putTerm_terms (h : u ∈ (putTerm i v r).terms) :
    u = v ∨ u ∈ r.terms ∧ v.isSame u = false := by
  obtain ⟨k, hk⟩ := List.mem_iff_getElem?.1 h
  rw [getElem?_putTerm] at hk
  obtain ⟨w, hw, rfl⟩ := Option.map_eq_some_iff.1 hk
  split
  · exact .inl rfl
  · next other =>
    rw [Bool.or_eq_true, not_or, Bool.not_eq_true, Bool.not_eq_true] at other
    exact .inr ⟨List.mem_of_getElem? hw, other.2⟩

theorem shared_putTerm (i : Nat) (v : Term) (r : Roll) :
    (putTerm i v r).shared = r.shared.map fun w => if v.isSame w then v else w :=
  updateTag_eq_map v r.shared

theorem mem_putTerm_shared (h : u ∈ (putTerm i v r).shared) :
    u = v ∨ u ∈ r.shared ∧ v.isSame u = false := by
  rw [shared_putTerm] at h
  obtain ⟨w, hw, rfl⟩ := List.mem_map.1 h
  split
  · exact .inl rfl
  · next other => exact .inr ⟨hw, by simpa using other⟩

theorem Coherent.putTerm (h : r.Coherent) (i : Nat) (v : Term) : (putTerm i v r).Coherent := by
  intro t ht u hu same
  have symm {a b : Term} (hab : a.isSame b = true) : b.isSame a = true := by
    simp only [Term.isSame, Bool.and_eq_true, beq_iff_eq] at hab ⊢
    exact ⟨hab.2 ▸ hab.1, hab.2.symm⟩
  have hu : u = v ∨ (u ∈ r.terms ∨ u ∈ r.shared) ∧ v.isSame u = false := by
    rcases hu with hu | hu
    · exact (mem_putTerm_terms hu).imp_right fun ⟨mem, other⟩ => ⟨.inl mem, other⟩
    · exact (mem_putTerm_shared hu).imp_right fun ⟨mem, other⟩ => ⟨.inr mem, other⟩
  rcases mem_putTerm_terms ht with rfl | ⟨ht, other⟩
  · rcases hu with rfl | ⟨-, other⟩
    · rfl
    · rw [same] at other
      cases other
  · rcases hu with rfl | ⟨hu, -⟩
    · rw [symm same] at other
      cases other
    · exact h t ht u hu same

/-- To put a term back as it was changes nothing. -/
theorem Coherent.putTerm_self (h : r.Coherent) (ht : r.terms[i]? = some t) : Roll.putTerm i t r = r := by
  have mem := List.mem_of_getElem? ht
  have terms : (Roll.putTerm i t r).terms = r.terms := by
    refine List.ext_getElem? fun k => ?_
    rw [getElem?_putTerm]
    cases hk : r.terms[k]? with
    | none => rfl
    | some w =>
      simp only [Option.map_some, Option.some.injEq]
      split
      · next same =>
        rcases Bool.or_eq_true_iff.1 same with place | same
        · obtain rfl := beq_iff_eq.1 place
          exact Option.some.inj (ht.symm.trans hk)
        · exact (h t mem w (.inl (List.mem_of_getElem? hk)) same).symm
      · rfl
  have shared : (Roll.putTerm i t r).shared = r.shared := by
    rw [shared_putTerm]
    refine (List.map_congr_left fun w hw => ?_).trans (List.map_id _)
    split
    · next same => exact (h t mem w (.inr hw) same).symm
    · rfl
  calc Roll.putTerm i t r
      = { r with terms := (Roll.putTerm i t r).terms, shared := (Roll.putTerm i t r).shared } := rfl
    _ = r := by
      rw [terms, shared]
      cases r
      rfl

end

/-! ### Rolls that are made -/

theorem coherent_of_untagged {r : Roll} (h : ∀ t ∈ r.terms, t.label.tag = none) : r.Coherent := by
  intro t ht u _ same
  simp [Term.isSame, h t ht] at same

/-- A roll as it is made: of a formula, of terms, or of a record. -/
inductive Made (config : Config) : Roll → Prop
  | formula {formula data options : Value} {r : Roll} :
      create formula data options config = .ok r → Made config r
  | terms {ts : List Term} {options : Value} {r : Roll} :
      (∀ t ∈ ts, ∀ u ∈ ts, t.isSame u = true → u = t) → assemble ts options config = .ok r →
      Made config r
  | record {record : Value} {r : Roll} : Roll.ofRecord config record = .ok r → Made config r

/-- The identified terms of a list are among its terms. -/
theorem mem_of_mem_identified {ts : List Term} {t : Term} (h : t ∈ identified ts) : t ∈ ts := by
  suffices ∀ (ts found : List Term), t ∈ ts.foldl (fun found t =>
      if t.label.tag.isNone || found.any fun u => u.label.tag == t.label.tag then found
      else found ++ [t]) found → t ∈ found ∨ t ∈ ts from
    (this ts [] h).resolve_left List.not_mem_nil
  intro ts
  induction ts with
  | nil => exact fun found h => .inl h
  | cons u ts ih =>
    intro found h
    rcases ih _ h with h | h
    · dsimp only at h
      split at h
      · exact .inl h
      · rcases List.mem_append.1 h with h | h
        · exact .inl h
        · exact .inr (List.mem_cons.2 (.inl (List.mem_singleton.1 h)))
    · exact .inr (List.mem_cons_of_mem _ h)

/-- The terms of a roll that is restored are those that its record lists. -/
theorem untagged_of_ofRecord {record : Value} {r : Roll} (h : ofRecord config record = .ok r) :
    ∀ t ∈ r.terms, t.label.tag = none := by
  obtain ⟨fuel, h⟩ : ∃ fuel, restore (Term.readRecord config fuel) record config = .ok r := ⟨_, h⟩
  unfold restore at h
  split at h
  · obtain ⟨items, -, h⟩ := bind_eq_ok.1 h
    obtain ⟨terms, read, h⟩ := bind_eq_ok.1 h
    obtain ⟨options, -, h⟩ := bind_eq_ok.1 h
    obtain ⟨s, made, h⟩ := bind_eq_ok.1 h
    have untagged : ∀ t ∈ terms, t.label.tag = none := by
      refine forall_of_mapM_eq_ok read fun v _ t ht => ?_
      have readable := Term.untagged_readRecord config fuel v
      rwa [ht] at readable
    have same : s.terms = terms := by
      unfold ofTerms? at made
      split at made
      · rw [← Except.ok.inj made]
        rfl
      · cases made
    have kept : r.terms = s.terms := by
      dsimp only at h
      split at h
      · split at h
        · obtain ⟨dice, -, h⟩ := bind_eq_ok.1 h
          rw [← Except.ok.inj h]
        · obtain ⟨dice, -, h⟩ := bind_eq_ok.1 h
          rw [← Except.ok.inj h]
      · rw [← Except.ok.inj h]
    rwa [kept, same]
  · cases h

/-- **Every roll that is made is coherent.** -/
theorem Made.coherent {r : Roll} (h : r.Made config) : r.Coherent := by
  cases h with
  | formula h =>
    exact coherent_of_untagged fun t ht => ((waiting_of_create h).terms t ht).storable.label.tag
  | @terms ts _ _ same h =>
    obtain ⟨options, -, h⟩ := bind_eq_ok.1 h
    obtain ⟨s, made, h⟩ := bind_eq_ok.1 h
    unfold ofTerms? at made
    split at made
    · obtain rfl := Except.ok.inj made
      obtain rfl := Except.ok.inj h
      intro t ht u hu
      exact same t ht u (hu.elim id mem_of_mem_identified)
    · cases made
  | record h => exact coherent_of_untagged (untagged_of_ofRecord h)

/-! ## Place by place -/

/-- What is true of a roll `s` that was `r` before the terms at its first `n` places were altered. -/
structure AlteredBefore (multiply add : Value) (n : Nat) (r s : Roll) : Prop where
  coherent : s.Coherent
  sheet : s.sheet = r.sheet
  length : s.terms.length = r.terms.length
  terms : ∀ (i : Nat) (t : Term), r.terms[i]? = some t →
    ∃ u, s.terms[i]? = some u ∧ t.AlteredTimes multiply add (alterations r.terms n i) u
  untouched : (∀ j < n, ∀ t, r.terms[j]? = some t → t.isDice = false) → s = r

namespace AlteredBefore

variable {n : Nat} {r s : Roll} {t u v : Term}

theorem start (h : r.Coherent) : AlteredBefore multiply add 0 r r where
  coherent := h
  sheet := rfl
  length := rfl
  terms := fun _ t ht => ⟨t, ht, .zero t⟩
  untouched := fun _ => rfl

/-- A term that is no dice is passed. -/
theorem pass (h : AlteredBefore multiply add n r s) (ht : r.terms[n]? = some t)
    (other : t.isDice = false) : AlteredBefore multiply add (n + 1) r s where
  coherent := h.coherent
  sheet := h.sheet
  length := h.length
  terms := by
    intro i t' ht'
    rw [alterations_succ, ht, Option.any_some, other, Bool.false_and]
    exact h.terms i t' ht'
  untouched := fun none => h.untouched fun j hj => none j (Nat.lt_succ_of_lt hj)

/-- Dice are altered at all of their places. -/
theorem change (h : AlteredBefore multiply add n r s) (ht : r.terms[n]? = some t)
    (dice : t.isDice = true) (hu : s.terms[n]? = some u)
    (done : Term.alter multiply add u = .done v ()) :
    AlteredBefore multiply add (n + 1) r (putTerm n v s) where
  coherent := h.coherent.putTerm n v
  sheet := h.sheet
  length := by
    rw [← h.length]
    simp [putTerm, updateTag_eq_map]
  terms := by
    intro i t' ht'
    obtain ⟨w, hw, times⟩ := h.terms i t' ht'
    obtain ⟨u', hu', before⟩ := h.terms n t ht
    obtain rfl := Option.some.inj (hu.symm.trans hu')
    have labels : v.label = t.label := by
      obtain ⟨d, number, -, -, -, rfl⟩ := Term.alter_eq_done done
      exact before.label
    have same : v.isSame w = t.isSame t' := Term.isSame_of_label labels times.label
    rw [getElem?_putTerm, hw, alterations_succ, ht, ht']
    simp only [Option.map_some, Option.any_some, dice, Bool.true_and, same]
    refine ⟨_, rfl, ?_⟩
    split
    · next here =>
      refine .succ (?_ : t'.AlteredTimes multiply add _ u) done
      rcases Bool.or_eq_true_iff.1 here with place | identity
      · obtain rfl := beq_iff_eq.1 place
        obtain rfl := Option.some.inj (hu.symm.trans hw)
        exact times
      · have identity : u.isSame w = true := by
          rwa [Term.isSame_of_label before.label times.label]
        rwa [← h.coherent u (List.mem_of_getElem? hu) w (.inl (List.mem_of_getElem? hw)) identity]
    · exact times
  untouched := fun none => absurd dice (by simp [none n (Nat.lt_succ_self n) t ht])

end AlteredBefore

/-- The dice term at a place refuses the alteration after those of the places before it. -/
def RefusesAt (multiply add : Value) (i : Nat) (r : Roll) (e : Error) : Prop :=
  ∃ t u, r.terms[i]? = some t ∧ t.isDice = true
    ∧ t.AlteredTimes multiply add (alterations r.terms i i) u
    ∧ Term.alter multiply add u = .fail u e

/-- **An alteration goes place by place**, up to the first term that refuses. -/
theorem alterFrom_cases {r : Roll} (count : Nat) :
    ∀ {n : Nat} {s : Roll}, AlteredBefore multiply add n r s → n + count = r.terms.length →
      (∃ s', alterFrom multiply add count n s = .done s' ()
          ∧ AlteredBefore multiply add r.terms.length r s')
        ∨ ∃ i s' e, alterFrom multiply add count n s = .fail s' e
          ∧ AlteredBefore multiply add i r s' ∧ r.RefusesAt multiply add i e := by
  simp only [alterFrom_eq]
  induction count with
  | zero =>
    intro n s h all
    exact .inl ⟨s, rfl, by rwa [← all]⟩
  | succ count ih =>
    intro n s h all
    have inside : n < r.terms.length := by omega
    obtain ⟨t, ht⟩ : ∃ t, r.terms[n]? = some t := ⟨_, List.getElem?_eq_getElem inside⟩
    obtain ⟨u, hu, times⟩ := h.terms n t ht
    have all : n + 1 + count = r.terms.length := by omega
    simp only [visit_of_some hu, alterDice, times.isDice]
    cases dice : t.isDice with
    | false => exact ih (h.pass ht dice) all
    | true =>
      have onTerm : onTerm n u (Term.alter multiply add) s
          = (Term.alter multiply add u).mapState fun part => putTerm n part s := by
        simp [Roll.onTerm, Task.within, hu]
      simp only [if_true, onTerm]
      rcases Term.alter_done_or_fail multiply add u with ⟨v, done⟩ | ⟨e, failed⟩
      · rw [done]
        exact ih (h.change ht dice hu done) all
      · rw [failed]
        refine .inr ⟨n, s, e, ?_, h, t, u, ht, dice, times, failed⟩
        simp only [Steps.mapState, Steps.bind, h.coherent.putTerm_self hu]

/-! ## All or nothing -/

/-- An alteration is made as a whole or not at all: either all dice terms are altered, each as often
as it stands in the roll, and the formula is that of the terms, or the roll is as before. -/
def WholeOrNot (multiply add : Value) (r : Roll) : Prop :=
  (∃ s, alter multiply add r = .done s () ∧ s.formula = .str (formulaOf s.terms)
      ∧ s.terms.length = r.terms.length
      ∧ ∀ (i : Nat) (t : Term), r.terms[i]? = some t → ∃ u, s.terms[i]? = some u
        ∧ t.AlteredTimes multiply add (alterations r.terms r.terms.length i) u)
    ∨ ∃ e, alter multiply add r = .fail r e

/-- Dice terms behind the first one do not refuse. -/
def AcceptsBehindFirst (multiply add : Value) (r : Roll) : Prop :=
  ∀ (j i : Nat) (d t : Term), j < i → r.terms[j]? = some d → d.isDice = true →
    r.terms[i]? = some t → t.isDice = true →
    ∃ u, t.AlteredTimes multiply add (alterations r.terms (i + 1) i) u

section

variable {r : Roll} (created : r.sheet.state = .created) (coherent : r.Coherent)

include created coherent

/-- **What an alteration does**: it alters all dice terms and prints the formula anew, or it alters
those in front of the first one that refuses, and leaves the formula as it is. -/
theorem alter_cases (multiply add : Value) :
    (∃ s, AlteredBefore multiply add r.terms.length r s
        ∧ alter multiply add r
          = .done { s with sheet := { s.sheet with formula := .str (formulaOf s.terms) } } ())
      ∨ ∃ i s e, AlteredBefore multiply add i r s ∧ r.RefusesAt multiply add i e
        ∧ alter multiply add r = .fail s e := by
  have waits : r.sheet.state.isCreated = true := by rw [created]; rfl
  simp only [alter, Task.bind_apply, Task.get_apply, Steps.bind, waits, Bool.not_true,
    Bool.false_eq_true, if_false]
  rcases alterFrom_cases r.terms.length (AlteredBefore.start coherent) (Nat.zero_add _) with
    ⟨s, done, altered⟩ | ⟨i, s, e, failed, altered, refuses⟩
  · exact .inl ⟨s, altered, by rw [done]; rfl⟩
  · exact .inr ⟨i, s, e, altered, refuses, by rw [failed]; rfl⟩

/-- If at most the first dice term refuses, an alteration is all or nothing. -/
theorem wholeOrNot_of_accepts (accepts : r.AcceptsBehindFirst multiply add) :
    r.WholeOrNot multiply add := by
  rcases alter_cases created coherent multiply add with
    ⟨s, altered, done⟩ | ⟨i, s, e, altered, ⟨t, u, ht, dice, times, refuses⟩, failed⟩
  · exact .inl ⟨_, done, rfl, altered.length, altered.terms⟩
  · obtain rfl : s = r := by
      refine altered.untouched fun j hj d hd => Bool.eq_false_iff.2 fun first => ?_
      obtain ⟨v, more⟩ := accepts j i d t hj hd first ht dice
      have here : alterations r.terms (i + 1) i = alterations r.terms i i + 1 := by
        simp [alterations_succ, ht, dice]
      rw [here] at more
      cases more with
      | succ before last =>
        obtain rfl := times.unique before
        rw [refuses] at last
        cases last
    exact .inr ⟨e, failed⟩

end

/-- Dice terms behind the first one that each stand in the roll once and can be altered do not
refuse. -/
theorem acceptsBehindFirst_of_append {r : Roll} {front back : List Term} {first : Term}
    (split : r.terms = front ++ first :: back) (plain : ∀ t ∈ front, t.isDice = false)
    (h : ∀ t ∈ back, t.isDice = true →
      t.label.tag = none ∧ ∃ u, Term.alter multiply add t = .done u ()) :
    r.AcceptsBehindFirst multiply add := by
  intro j i d t lt hj dice_j ht dice
  have behind : front.length ≤ j := by
    refine Nat.le_of_not_lt fun inside => ?_
    rw [split, List.getElem?_append_left inside] at hj
    rw [plain d (List.mem_of_getElem? hj)] at dice_j
    cases dice_j
  have mem : t ∈ back := by
    rw [split, List.getElem?_append_right (by omega)] at ht
    obtain ⟨k, hk⟩ : ∃ k, i - front.length = k + 1 := ⟨i - front.length - 1, by omega⟩
    rw [hk, List.getElem?_cons_succ] at ht
    exact List.mem_of_getElem? ht
  obtain ⟨untagged, u, done⟩ := h t mem dice
  have before : alterations r.terms i i = 0 := by
    refine List.countP_eq_zero.2 fun k hk => ?_
    have other : k ≠ i := Nat.ne_of_lt (List.mem_range.1 hk)
    cases hv : r.terms[k]? with
    | none => simp
    | some v =>
      have apart : v.isSame t = false := by
        cases tag : v.label.tag <;> simp [Term.isSame, untagged, tag]
      simp [ht, other, apart]
  have once : alterations r.terms (i + 1) i = 1 := by simp [alterations_succ, before, ht, dice]
  rw [once]
  exact ⟨u, .succ (.zero t) done⟩

/-! ## Alterations in order -/

/-- What the calls leave of a roll that is altered once for each of them, whether it refuses or not.
They draw nothing, so that the source does not matter. -/
def afterAlters (src : Source) (calls : List (Value × Value)) (r : Roll) : Roll :=
  calls.foldl (fun r call => ((alter call.1 call.2 r).run .never src).state) r

section

variable {r : Roll} (created : r.sheet.state = .created) (coherent : r.Coherent)

include created coherent

/-- An alteration leaves a roll that can be altered again. -/
theorem standing_after_alter (multiply add : Value) (src : Source) :
    let s := ((alter multiply add r).run .never src).state
    s.sheet.state = .created ∧ s.Coherent := by
  rcases alter_cases created coherent multiply add with
    ⟨s, altered, done⟩ | ⟨i, s, e, altered, -, failed⟩
  · rw [done]
    exact ⟨(congrArg Sheet.state altered.sheet).trans created, altered.coherent⟩
  · rw [failed]
    exact ⟨(congrArg Sheet.state altered.sheet).trans created, altered.coherent⟩

/-- What holds of one alteration holds of any number of them. -/
theorem alters_of_coherent (src : Source) {calls : List (Value × Value)}
    (accepts : ∀ before multiply add after, calls = before ++ (multiply, add) :: after →
      (afterAlters src before r).AcceptsBehindFirst multiply add) :
    (∀ before multiply add after, calls = before ++ (multiply, add) :: after →
        (afterAlters src before r).WholeOrNot multiply add)
      ∧ (r.formula = .str (formulaOf r.terms) →
        (afterAlters src calls r).formula = .str (formulaOf (afterAlters src calls r).terms)) := by
  induction calls generalizing r with
  | nil =>
    refine ⟨fun before multiply add after whole => ?_, id⟩
    cases before <;> cases whole
  | cons call calls ih =>
    obtain ⟨multiply, add⟩ := call
    let s := ((alter multiply add r).run .never src).state
    have first : r.WholeOrNot multiply add :=
      wholeOrNot_of_accepts created coherent (accepts [] multiply add calls rfl)
    obtain ⟨created', coherent'⟩ := standing_after_alter created coherent multiply add src
    obtain ⟨whole, printed⟩ := ih (r := s) created' coherent' fun before m a after h =>
      accepts ((multiply, add) :: before) m a after (congrArg _ h)
    refine ⟨fun before m a after h => ?_, fun formula => printed ?_⟩
    · cases before with
      | nil =>
        obtain ⟨⟨rfl, rfl⟩, -⟩ : (multiply = m ∧ add = a) ∧ calls = after := by simpa using h
        exact first
      | cons call before =>
        obtain ⟨rfl, rest⟩ := List.cons.inj h
        exact whole before m a after rest
    · rcases first with ⟨u, done, formula, -⟩ | ⟨e, failed⟩
      · have left : s = u := by simp only [s, done]; rfl
        rwa [left]
      · have left : s = r := by simp only [s, failed]; rfl
        rwa [left]

end

/-- **Alterations are all or nothing if at most the first dice term refuses**, and they keep the
formula that of the terms. However a roll was made, however often it is altered before its evaluation
and whatever it is altered by, if none of the calls finds a dice term that refuses behind another one,
then each of them alters all dice terms and prints the formula, or it fails and leaves the roll as it
is. -/
theorem alters_whole_or_not {r : Roll} (made : r.Made config) (created : r.sheet.state = .created)
    (src : Source) {calls : List (Value × Value)}
    (accepts : ∀ before multiply add after, calls = before ++ (multiply, add) :: after →
      (afterAlters src before r).AcceptsBehindFirst multiply add) :
    (∀ before multiply add after, calls = before ++ (multiply, add) :: after →
        (afterAlters src before r).WholeOrNot multiply add)
      ∧ (r.formula = .str (formulaOf r.terms) →
        (afterAlters src calls r).formula = .str (formulaOf (afterAlters src calls r).terms)) :=
  alters_of_coherent created made.coherent src accepts

/-- A call alters the dice behind a number, and the next one refuses, as no double is that large. -/
theorem alters_whole_or_not_of_overflow :
    let config : Config := .diceOnly
    let d : Dice := { kind := .die, number := .int 2, faces := .int 6, hand := {} }
    let terms : List Term := [.make (.number (.int 1)) [] config, .make (.operator .plus) [] config,
      .make (.dice d) [] config]
    let r := ofTerms terms [] config
    let src : Source := { pending := [], fill := none }
    let calls : List (Value × Value) := [(.int 2, .int 1), (.num (.float 1e308), .null)]
    r.Made config ∧ r.sheet.state = .created ∧ r.formula = .str (formulaOf r.terms)
      ∧ (∀ before multiply add after, calls = before ++ (multiply, add) :: after →
        (afterAlters src before r).AcceptsBehindFirst multiply add)
      ∧ (∀ before multiply add after, calls = before ++ (multiply, add) :: after →
        (afterAlters src before r).WholeOrNot multiply add)
      ∧ (afterAlters src calls r).formula = .str (formulaOf (afterAlters src calls r).terms)
      ∧ formulaOf (afterAlters src calls r).terms = "1 + 5d6" := by
  intro config d terms r src calls
  have alone : ∀ t ∈ terms, ∀ u ∈ terms, t.isSame u = true → u = t := by
    simp [terms, Term.isSame, Term.make]
  have made : r.Made config := .terms alone (rfl : assemble terms .null config = .ok r)
  -- the dice are the third and last term, whatever came before
  have single (s : Roll) (multiply add : Value)
      (h : (s.terms.take 2).all (fun t => !t.isDice) = true ∧ (s.terms.drop 2).length = 1) :
      s.AcceptsBehindFirst multiply add := by
    obtain ⟨c, last⟩ := List.length_eq_one_iff.1 h.2
    have split : s.terms = s.terms.take 2 ++ c :: [] := by rw [← last, List.take_append_drop]
    have plain : ∀ t ∈ s.terms.take 2, t.isDice = false := by simpa using h.1
    exact acceptsBehindFirst_of_append split plain (List.forall_mem_nil _)
  have accepts : ∀ before multiply add after, calls = before ++ (multiply, add) :: after →
      (afterAlters src before r).AcceptsBehindFirst multiply add := by
    intro before multiply add after h
    rcases before with _ | ⟨first, _ | ⟨second, before⟩⟩
    · exact single _ _ _ (by decide +kernel)
    · obtain ⟨rfl, -⟩ := List.cons.inj h
      exact single _ _ _ (by decide +kernel)
    · simp [calls] at h
  have all := alters_whole_or_not made rfl src accepts
  exact ⟨made, rfl, rfl, accepts, all.1, all.2 rfl, by decide +kernel⟩

/-- A die is altered in front of one that was rolled, which refuses: the roll is left with 2d6 where
its formula says 1d6. -/
theorem alter_of_rolled_behind :
    let config : Config := .diceOnly
    let die : Dice := { kind := .die, number := .int 1, faces := .int 6, hand := {} }
    let rolled : Dice := { die with hand := { results := [{ face := .int 4 }] } }
    let terms : List Term := [.make (.dice die) [] config, .make (.operator .plus) [] config,
      (Term.make (.dice rolled) [] config).setMark (.bool true)]
    ¬∀ r, assemble terms .null config = .ok r → r.sheet.state = .created →
      r.WholeOrNot (.int 2) .null := by
  intro config die rolled terms whole
  let r : Roll := { terms, dice := [], shared := [],
                    sheet := { formula := .str "1d6 + 1d6", options := [], config } }
  have made : assemble terms .null config = .ok r := by rfl
  have first (s : Roll) (e : Error) (h : alter (.int 2) .null r = .fail s e) :
      formulaOf s.terms = "2d6 + 1d6" := by
    cases h
    decide +kernel
  rcases whole r made rfl with ⟨s, done, -⟩ | ⟨e, failed⟩
  · cases done
  · have altered := first r e failed
    revert altered
    decide +kernel

end Roll

end DiceFormula
