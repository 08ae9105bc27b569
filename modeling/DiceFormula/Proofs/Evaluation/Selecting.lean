import DiceFormula.Proofs.Arithmetic.Numeral
import DiceFormula.Proofs.Evaluation.Cutting
import DiceFormula.Proofs.Evaluation.Extreme
import DiceFormula.Proofs.Result.Selection

/-!
# Dice that are kept and dropped

Dice whose modifiers do nothing but keep and drop end with natural results, and what the modifiers
do is the same function of the results in every evaluation (`Hand.Selecting`). As this function is
monotone, and as every face lies between the extreme ones, the results of a random evaluation lie
between those of the extreme evaluations (`Dice.bounds_roll`).
-/

namespace DiceFormula

/-! ## Commands of a modifier -/

namespace Command

/-- Whether a command keeps or drops. -/
def selects : Command → Bool
  | keep | drop => true
  | _ => false

end Command

/-- Whether a modifier keeps and drops only, once it is in lower case. What is no text is refused
before anything is done. -/
def Modifier.selects (table : Command.Table) (m : Value) : Bool :=
  match Hand.lowerModifier m with
  | .ok text => (Command.ofText table text).all Command.selects
  | .error _ => true

/-- Keeping and dropping is written by one of six words, and a number may follow. -/
theorem Command.ofText_selection {name : String} {c : Command} (h : (name, c) ∈ selection)
    {table : Table} (ht : table = ofKind .die ∨ table = ofPools) {ds : List Char}
    (hd : ∀ d ∈ ds, d.isDigit = true) : ofText table (name.toList ++ ds) = [c] := by
  have digits : ds.takeWhile Modifier.isLetter = [] := by
    cases ds with
    | nil => rfl
    | cons d ds =>
      have : Modifier.isLetter d = false :=
        Arithmetic.not_isAlpha_of_isDigit (hd d List.mem_cons_self)
      simp [this]
  obtain ⟨letters, lookup⟩ : name.toList.all Modifier.isLetter = true
      ∧ table.lookup name = some c := by
    have known : ∀ table ∈ [ofKind .die, ofPools], ∀ p ∈ selection,
        p.1.toList.all Modifier.isLetter = true ∧ table.lookup p.1 = some p.2 := by decide
    exact known table (by simpa using ht) (name, c) h
  have front : (name.toList ++ ds).takeWhile Modifier.isLetter = name.toList := by
    rw [List.takeWhile_append_of_pos (List.all_eq_true.1 letters), digits, List.append_nil]
  rw [ofText, front]
  simp [lookup]

/-- Small letters and digits are in lower case already. -/
theorem Case.lower_of_small {cs : List Char} (h : ∀ c ∈ cs, c.toNat < 128 ∧ c.toLower = c) :
    lower cs = cs := by
  have sigma : capitalSigma ∉ cs := fun hc => absurd (h _ hc).1 (by decide)
  rw [lower_of_not_mem cs sigma]
  induction cs with
  | nil => rfl
  | cons c cs ih =>
    obtain ⟨⟨ascii, small⟩, h⟩ := List.forall_mem_cons.1 h
    rw [List.flatMap_cons, ih h (fun hc => sigma (List.mem_cons_of_mem c hc)), lowerChar,
      if_pos ascii, small]
    rfl

/-- A modifier that is one of these words, with or without a number, keeps and drops only. -/
theorem Modifier.selects_selection {name : String} {c : Command}
    (h : (name, c) ∈ Command.selection) {table : Command.Table}
    (ht : table = Command.ofKind .die ∨ table = Command.ofPools) {ds : List Char}
    (hd : ∀ d ∈ ds, d.isDigit = true) :
    Modifier.selects table (.str (name ++ String.ofList ds)) = true := by
  obtain ⟨letters, selects⟩ :
      (∀ c ∈ name.toList, c.toNat < 128 ∧ c.toLower = c) ∧ c.selects = true := by
    have known : ∀ p ∈ Command.selection,
        (p.1.toList.all fun c => c.toNat < 128 && c.toLower == c) = true ∧ p.2.selects = true := by
      decide
    simpa using known (name, c) h
  have small : ∀ c ∈ name.toList ++ ds, c.toNat < 128 ∧ c.toLower = c := by
    refine List.forall_mem_append.2 ⟨letters, ?_⟩
    intro d hmem
    have bounds := Arithmetic.toNat_of_isDigit (hd d hmem)
    exact ⟨by omega, Arithmetic.toLower_of_isNumeralHead (.inl (hd d hmem))⟩
  have lower : Hand.lowerModifier (.str (name ++ String.ofList ds)) = .ok (name.toList ++ ds) := by
    rw [Hand.lowerModifier, Config.textOf, bind_ok, String.toList_append, String.toList_ofList,
      Case.lower_of_small small]
    rfl
  rw [Modifier.selects, lower]
  simp [Command.ofText_selection h ht hd, selects]

/-! ## What modifiers do to results -/

/-- What is done to the results of two hands leaves one below the other. -/
def DieResult.Increasing (f : List DieResult → List DieResult) : Prop :=
  ∀ ⦃rs ss⦄, Below rs ss → Below (f rs) (f ss)

theorem DieResult.Increasing.natural {f : List DieResult → List DieResult} (h : Increasing f)
    {rs : List DieResult} (hr : ∀ r ∈ rs, r.Natural) : ∀ r ∈ f rs, r.Natural :=
  (h (Below.refl hr)).natural

theorem Extreme.Beyond.natural {e : Extreme} {rs ss : List DieResult}
    (h : e.Beyond DieResult.Below rs ss) :
    (∀ r ∈ rs, r.Natural) ∧ ∀ r ∈ ss, r.Natural := by
  cases e with
  | least => exact ⟨DieResult.Below.natural_above h, DieResult.Below.natural h⟩
  | greatest => exact ⟨DieResult.Below.natural h, DieResult.Below.natural_above h⟩

/-- On natural results the modifier is not understood, or it does the same to all of them. -/
def Modifier.DoesTo (f : List DieResult → List DieResult) (m : List DieResult → Outcome) : Prop :=
  ∀ rs, (∀ r ∈ rs, r.Natural) → m rs = none ∧ f rs = rs ∨ m rs = some { state := f rs }

theorem Modifier.doesTo_keepOrDrop {m : List DieResult → Outcome} {stripped : Option (List Char)}
    {number : List Char → ℕ} {keep : Bool} {highest : List Char → Bool}
    (h : ∀ rs, m rs = stripped.map fun r =>
      DieResult.keepOrDrop (.int (number r)) keep (highest r) rs) :
    ∃ f, DieResult.Increasing f ∧ DoesTo f m := by
  cases stripped with
  | none => exact ⟨id, fun _ _ h => h, fun rs _ => .inl ⟨h rs, rfl⟩⟩
  | some r =>
    refine ⟨fun rs => (DieResult.keepOrDrop (.int (number r)) keep (highest r) rs).state, ?_, ?_⟩
    · intro rs ss below
      exact below.keepOrDrop _ _ _
    · intro rs hr
      obtain ⟨ss, kept, -⟩ := DieResult.natural_keepOrDrop hr (number r) keep (highest r)
      refine .inr ((h rs).trans ?_)
      simp only [Option.map_some, kept]

namespace Hand

/-- Keeping and dropping is carried out as for dice and for pools. -/
def Performs (perform : Performing) : Prop :=
  ∀ text, perform .keep text = plain (Modifier.keep text)
    ∧ perform .drop text = plain (Modifier.drop text)

theorem performs_onDice (context : Context) (d : Dice) (faces : Int) :
    Performs (performOnDice context d faces) := fun _ => ⟨rfl, rfl⟩

theorem performs_onPool : Performs performOnPool := fun _ => ⟨rfl, rfl⟩

variable {α : Type}

/-- Whatever is drawn, and however other commands are carried out, the task does the same to natural
results, and what it does is monotone. -/
def Selecting (task : Performing → Task Hand α) : Prop :=
  ∃ f, DieResult.Increasing f ∧ ∀ perform, Performs perform → ∀ (d : Dealing) (h : Hand),
    (∀ r ∈ h.results, r.Natural) → (task perform h).Ends d fun _ s _ => s.results = f h.results

theorem selecting_pure (a : α) : Selecting fun _ => (pure a : Task Hand α) :=
  ⟨id, fun _ _ h => h, fun _ _ _ _ _ => rfl⟩

theorem Selecting.andThen {t : Performing → Task Hand Unit} {u : Performing → Task Hand α}
    (ht : Selecting t) (hu : Selecting u) :
    Selecting fun perform => t perform >>= fun _ => u perform := by
  obtain ⟨f, hf, ht⟩ := ht
  obtain ⟨g, hg, hu⟩ := hu
  refine ⟨g ∘ f, fun rs ss h => hg (hf h), ?_⟩
  intro perform hp d h hr
  refine (ht perform hp d h hr).bind ?_
  intro k s _ hs
  refine (hu perform hp d s (by rw [hs]; exact hf.natural hr)).mono ?_
  intro n s' a h'
  rw [h', hs]
  rfl

theorem ends_plain {f : List DieResult → List DieResult} {m : List DieResult → Modifier.Outcome}
    (hm : Modifier.DoesTo f m) (d : Dealing) {h : Hand} (hr : ∀ r ∈ h.results, r.Natural) :
    (plain m h).Ends d fun _ s _ => s.results = f h.results := by
  simp only [plain, Task.bind_apply, Task.get_apply, Steps.bind]
  rcases hm h.results hr with ⟨none, same⟩ | some
  · rw [none]
    exact same.symm
  · rw [some]
    exact rfl

theorem selecting_perform {c : Command} (hc : c.selects = true) (text : List Char) :
    Selecting fun perform => perform c text := by
  cases c with
  | keep =>
    obtain ⟨f, hf, does⟩ := Modifier.doesTo_keepOrDrop (m := Modifier.keep text) fun _ => rfl
    refine ⟨f, hf, ?_⟩
    intro perform hp d h hr
    show (perform .keep text h).Ends d _
    rw [(hp text).1]
    exact ends_plain does d hr
  | drop =>
    obtain ⟨f, hf, does⟩ := Modifier.doesTo_keepOrDrop (m := Modifier.drop text) fun _ => rfl
    refine ⟨f, hf, ?_⟩
    intro perform hp d h hr
    show (perform .drop text h).Ends d _
    rw [(hp text).2]
    exact ends_plain does d hr
  | _ => cases hc

theorem selecting_carryOut {c : Command} (hc : c.selects = true) (text : List Char) :
    Selecting fun perform => carryOut perform c text := by
  obtain ⟨f, hf, does⟩ := selecting_perform hc text
  refine ⟨f, hf, ?_⟩
  intro perform hp d h hr
  refine (does perform hp d h hr).bind ?_
  intro k s understood hs
  cases understood with
  | true => exact hs
  | false => exact hs

variable {table : Command.Table}

theorem selecting_carryOutEach {ps : List Command.Written} (h : ∀ p ∈ ps, p.1.selects = true) :
    Selecting fun perform => carryOutEach perform ps := by
  induction ps with
  | nil => exact selecting_pure _
  | cons p ps ih =>
    obtain ⟨first, h⟩ := List.forall_mem_cons.1 h
    exact (selecting_carryOut first p.2).andThen (ih h)

theorem selecting_carryOutAll {texts : List (List Char)}
    (h : ∀ text ∈ texts, ∀ c ∈ Command.ofText table text, c.selects = true) :
    Selecting fun perform => carryOutAll table perform texts := by
  simp only [carryOutAll_eq_carryOutEach]
  refine selecting_carryOutEach ?_
  intro p hp
  obtain ⟨text, htext, hcut⟩ := List.mem_flatMap.1 hp
  refine h text htext p.1 ?_
  rw [Command.ofText_eq_map]
  exact List.mem_map_of_mem hcut

/-- **Modifiers that keep and drop leave one hand beyond the other.** -/
theorem bounds_carryOutModifiers {e : Extreme} {perform perform' : Performing}
    (hp : Performs perform) (hp' : Performs perform') (h h' : Hand)
    (hm : h.modifiers.all (Modifier.selects table) = true) (same : h'.modifiers = h.modifiers)
    (beyond : e.Beyond DieResult.Below h.results h'.results) :
    (carryOutModifiers table perform h).Bounds
      (fun s s' => e.Beyond DieResult.Below s.results s'.results)
      (carryOutModifiers table perform' h') := by
  unfold Steps.Bounds
  simp only [carryOutModifiers, Task.bind_apply, Task.get_apply, Steps.bind, same]
  cases ht : h.modifiers.mapM lowerModifier with
  | error e => exact trivial
  | ok texts =>
    simp only [Task.ofExcept_ok, Task.set_apply, Steps.bind]
    have selects : ∀ text ∈ texts, ∀ c ∈ Command.ofText table text, c.selects = true := by
      refine forall_of_mapM_eq_ok ht ?_
      intro m hmem text htext
      have := List.all_eq_true.1 hm m hmem
      rw [Modifier.selects, htext] at this
      exact List.all_eq_true.1 this
    obtain ⟨f, hf, does⟩ := @selecting_carryOutAll table texts selects
    refine (does perform hp .fair { h with modifiers := [] } beyond.natural.1).mono ?_
    intro n s _ hs
    obtain ⟨s', _, hs', ends⟩ := Steps.exists_comesTo
      (does perform' hp' .sure { h' with modifiers := [] } beyond.natural.2)
    refine ⟨s', ?_, ends⟩
    rw [hs, hs']
    exact beyond.imp f fun _ _ below => hf below

end Hand

/-! ## Faces -/

namespace Extreme

/-- The face that shows in an extreme evaluation. -/
def face (e : Extreme) (kind : DiceKind) (faces : ℕ) : ℕ :=
  match e, kind with
  | least, .die => 1
  | least, _ => 0
  | greatest, .die => faces
  | greatest, _ => 1

end Extreme

namespace Dice

variable {config : Config} {kind : DiceKind} {faces : ℕ}

theorem scaled_le {x : Float} {n : ℤ} (hx : IsDraw x) (hf : 1 ≤ faces)
    (h : scaled x faces = .ok n) : n ≤ faces := by
  unfold scaled at h
  cases hy : intToFloat faces with
  | error c => simp [Number.mul, Number.bothFloat, Number.toFloat, hy, ofNumeric] at h
  | ok y =>
    have product : (Number.float x).mul (.int faces) = .ok (.float (x * y)) := by
      simp [Number.mul, Number.bothFloat, Number.toFloat, hy]
    rw [product, bind_ok, Number.toInt] at h
    cases hk : floatToInt Dyadic.ceil (x * y) with
    | error c =>
      rw [hk] at h
      cases h
    | ok k =>
      rw [hk] at h
      obtain rfl : k = n := Except.ok.inj h
      exact Double.ceil_mul_le hx (by omega) hy hk

/-- A draw gives a face between the extreme ones. -/
theorem bounds_of_faceOfDraw {x : Float} {n : ℤ} (hx : IsDraw x) (hk : kind ≠ .fate)
    (hf : 1 ≤ faces) (h : faceOfDraw kind faces x = .ok n) :
    ∃ m : ℕ, n = (m : ℤ) ∧ ∀ e : Extreme, e.Beyond (· ≤ ·) m (e.face kind faces) := by
  suffices (Extreme.least.face kind faces : ℤ) ≤ n ∧ n ≤ Extreme.greatest.face kind faces by
    obtain ⟨low, high⟩ := this
    obtain ⟨m, rfl⟩ := Int.eq_ofNat_of_zero_le ((Int.natCast_nonneg _).trans low)
    refine ⟨m, rfl, ?_⟩
    intro e
    cases e with
    | least => exact Int.ofNat_le.1 low
    | greatest => exact Int.ofNat_le.1 high
  cases kind with
  | fate => exact absurd rfl hk
  | die =>
    obtain ⟨k, hk, h⟩ := bind_eq_ok.1 h
    obtain rfl := Except.ok.inj h
    have := scaled_le hx hf hk
    simp only [Extreme.face]
    omega
  | coin =>
    unfold faceOfDraw at h
    cases hk : Number.toInt Dyadic.floor (.float (x + 0.5)) with
    | error c =>
      simp only [hk] at h
      cases h
    | ok k =>
      simp only [hk] at h
      obtain rfl : k = n := Except.ok.inj h
      have := Double.floor_add_half hx hk
      simpa [Extreme.face] using this

theorem ends_face_random (hk : kind ≠ .fate) (hf : 1 ≤ faces) (h : Hand) :
    (face { config } kind (faces : ℤ) h).Ends .fair fun _ s n =>
      s = h ∧ ∃ m : ℕ, n = (m : ℤ) ∧ ∀ e : Extreme, e.Beyond (· ≤ ·) m (e.face kind faces) := by
  refine Steps.Ends.bind (Q := fun _ s x => s = h ∧ IsDraw x)
    (Task.ends_draw trivial (fun x hx => ⟨rfl, hx x rfl⟩) fun _ => trivial) ?_
  rintro k s x ⟨rfl, hx⟩
  refine Task.ends_ofExcept (Dealing.allows_of_ok (fun _ => trivial) ?_)
  exact fun n hn => ⟨rfl, bounds_of_faceOfDraw hx hk hf hn⟩

theorem ends_face_extreme (e : Extreme) (hk : kind ≠ .fate) {d : Dealing} (h : Hand) :
    (face { config, mode := e.mode } kind (faces : ℤ) h).Ends d fun _ s n =>
      s = h ∧ ∃ m : ℕ, n = (m : ℤ) ∧ m = e.face kind faces := by
  cases e <;> cases kind <;> first | exact absurd rfl hk | exact ⟨rfl, _, rfl, rfl⟩

theorem ends_rollMany {context : Context} {faces : ℤ} {d : Dealing} {P : ℕ → Prop}
    (hk : kind ≠ .fate)
    (hface : ∀ h, (face context kind faces h).Ends d fun _ s n =>
      s = h ∧ ∃ m : ℕ, n = (m : ℤ) ∧ P m) (number : ℕ) : ∀ h : Hand,
    (rollMany context kind faces number h).Ends d fun _ s _ => ∃ ns : List ℕ, ns.length = number
      ∧ (∀ n ∈ ns, P n) ∧ s = { h with results := h.results ++ ns.map DieResult.ofPoints } := by
  induction number with
  | zero => exact fun h => ⟨[], rfl, List.forall_mem_nil _, by simp⟩
  | succ number ih =>
    intro h
    refine Steps.Ends.bind (Q := fun _ s _ => ∃ m : ℕ, P m
      ∧ s = { h with results := h.results ++ [DieResult.ofPoints m] }) ?_ ?_
    · refine (hface h).bind ?_
      rintro k s _ ⟨rfl, m, rfl, hm⟩
      refine ⟨m, hm, ?_⟩
      cases kind with
      | fate => exact absurd rfl hk
      | die | coin => rfl
    · rintro k _ - ⟨m, hm, rfl⟩
      refine (ih { h with results := h.results ++ [DieResult.ofPoints m] }).mono ?_
      rintro n _ - ⟨ns, length, hns, rfl⟩
      exact ⟨m :: ns, congrArg (· + 1) length, List.forall_mem_cons.2 ⟨hm, hns⟩, by simp⟩

theorem one_le_of_check {d : Dice} {c : Checked} (h : d.check config = .ok c) : 1 ≤ c.faces := by
  obtain ⟨number, -, h⟩ := bind_eq_ok.1 h
  obtain ⟨faces, hf, h⟩ := bind_eq_ok.1 h
  obtain rfl := Except.ok.inj h
  unfold checkFaces at hf
  split at hf
  · cases hf
  · next n _ =>
    split at hf
    · cases hf
    · next positive =>
      rw [← Except.ok.inj hf]
      exact Int.not_lt.1 positive

/-- **Dice that are kept and dropped lie between the extremes.** -/
theorem bounds_roll (e : Extreme) {d : Dice} (hk : d.kind ≠ .fate) {h : Hand}
    (hm : h.modifiers.all (Modifier.selects (Command.ofKind d.kind)) = true)
    (empty : h.results = []) :
    (d.roll { config } h).Bounds (fun s s' => e.Beyond DieResult.Below s.results s'.results)
      (d.roll { config, mode := e.mode } h) := by
  unfold Steps.Bounds
  simp only [roll, Task.bind_apply]
  cases hc : d.check config with
  | error e => exact trivial
  | ok c =>
    have positive := one_le_of_check hc
    obtain ⟨faces, hfaces⟩ := Int.eq_ofNat_of_zero_le (Int.le_trans Int.one_nonneg positive)
    rw [hfaces] at positive
    simp only [Task.ofExcept_ok, Steps.bind, hfaces]
    refine (ends_rollMany hk (fun h => ends_face_random hk (by omega) h) c.number h).bind ?_
    rintro k _ - ⟨ns, length, hns, rfl⟩
    rw [empty, List.nil_append]
    -- in the extreme evaluation all faces are the same
    let extremes := List.replicate c.number (e.face d.kind faces)
    have beyond : e.Beyond DieResult.Below (ns.map DieResult.ofPoints)
        (extremes.map DieResult.ofPoints) := by
      refine (Extreme.beyond_forall₂ ?_).imp (List.map DieResult.ofPoints)
        fun _ _ => DieResult.Below.of_forall₂
      refine List.forall₂_iff_zip.2 ⟨by simp [extremes, length], ?_⟩
      intro n m hnm
      rw [List.eq_of_mem_replicate (List.of_mem_zip hnm).2]
      exact hns n (List.of_mem_zip hnm).1 e
    refine (Hand.bounds_carryOutModifiers (Hand.performs_onDice _ d faces)
      (Hand.performs_onDice { config, mode := e.mode } d faces)
      { h with results := ns.map DieResult.ofPoints }
      { h with results := extremes.map DieResult.ofPoints } hm rfl beyond).mono ?_
    rintro n s - ⟨t, below, ht⟩
    obtain ⟨_, _, ⟨ms, length, hms, rfl⟩, rolled⟩ := Steps.exists_comesTo
      (ends_rollMany hk (ends_face_extreme e hk) c.number h)
    obtain rfl : ms = extremes := List.eq_replicate_iff.2 ⟨length, hms⟩
    rw [empty, List.nil_append] at rolled
    exact ⟨t, below, rolled.bind ht⟩

end Dice

end DiceFormula
