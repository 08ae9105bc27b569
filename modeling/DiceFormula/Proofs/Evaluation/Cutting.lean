import DiceFormula.Evaluation.Modifiers
import Mathlib.Data.List.TakeWhile

/-!
# The commands of modifiers

Modifiers are cut into commands before anything is carried out: what a text is cut into does not
depend on the results, so that carrying out modifiers is to carry out a list of commands, each with
the text it is written by (`Hand.carryOutAll_eq_carryOutEach`). A run of letters gets shorter with
every command that is cut off, so that the cutting ends by itself (`Command.cutRun_add`). A text that
was cut off is cut no further: it gives just the command that it was cut off for
(`Command.cut_of_mem_cut`).
-/

namespace DiceFormula

/-! ## The longest command -/

namespace Hand

variable {table : Command.Table}

/-- A command that is found is one of the table, and stands at the front of the letters. -/
theorem exists_of_longest? {letters name : List Char} {c : Command}
    (h : longest? table letters = some (name, c)) :
    ∃ n, (n, c) ∈ table ∧ n.toList = name ∧ name <+: letters := by
  unfold longest? at h
  refine List.foldlRecOn (motive := fun best : Option (List Char × Command) =>
      ∀ name c, best = some (name, c) → ∃ n, (n, c) ∈ table ∧ n.toList = name ∧ name <+: letters)
    table _ (by simp) ?_ name c h
  rintro best ih ⟨n, c'⟩ mem name c h
  dsimp only at h
  split at h
  · next found =>
    obtain ⟨rfl, rfl⟩ : n.toList = name ∧ c' = c := by simpa using h
    exact ⟨n, mem, rfl, List.isPrefixOf_iff_prefix.1 (Bool.and_eq_true_iff.1 found).1⟩
  · exact ih name c h

/-- What is found is not empty if no command of the table is. -/
theorem isPrefixOf_of_longest? (proper : ∀ e ∈ table, e.1 ≠ "") {letters name : List Char}
    {c : Command} (h : longest? table letters = some (name, c)) : name ≠ [] ∧ name <+: letters := by
  obtain ⟨n, mem, rfl, front⟩ := exists_of_longest? h
  exact ⟨fun e => proper _ mem (String.toList_eq_nil_iff.1 e), front⟩

theorem length_drop_of_longest? (proper : ∀ e ∈ table, e.1 ≠ "") {letters name : List Char}
    {c : Command} (h : longest? table letters = some (name, c)) :
    (letters.drop name.length).length < letters.length := by
  obtain ⟨hne, hp⟩ := isPrefixOf_of_longest? proper h
  have := List.length_pos_iff.2 hne
  have := hp.length_le
  simp only [List.length_drop]
  omega

end Hand

namespace Command

/-! ## Cutting -/

/-- The commands that a run of letters is cut into. -/
def ofRun (table : Table) : Nat → List Char → List Command
  | 0, _ => []
  | fuel + 1, letters =>
    match Hand.longest? table letters with
    | none => []
    | some (name, c) => c :: ofRun table fuel (letters.drop name.length)

/-- The commands that a modifier gives. What is not understood gives none. -/
def ofText (table : Table) (text : List Char) : List Command :=
  let letters := text.takeWhile Modifier.isLetter
  match table.lookup (String.ofList letters) with
  | some c => [c]
  | none => ofRun table letters.length letters

/-- A command with the text that it is written by. -/
abbrev Written := Command × List Char

/-- The commands that a run of letters is cut into, longest first. -/
def cutRun (table : Table) : Nat → List Char → List Written
  | 0, _ => []
  | fuel + 1, letters =>
    match Hand.longest? table letters with
    | none => []
    | some (name, c) => (c, name) :: cutRun table fuel (letters.drop name.length)

/-- What a modifier is cut into: a known command keeps the whole text, a longer run of letters loses
what follows it. -/
def cut (table : Table) (text : List Char) : List Written :=
  let letters := text.takeWhile Modifier.isLetter
  match table.lookup (String.ofList letters) with
  | some c => [(c, text)]
  | none => cutRun table letters.length letters

theorem ofRun_eq_map (table : Table) (fuel : ℕ) (letters : List Char) :
    ofRun table fuel letters = (cutRun table fuel letters).map Prod.fst := by
  induction fuel generalizing letters with
  | zero => rfl
  | succ fuel ih =>
    unfold ofRun cutRun
    cases Hand.longest? table letters with
    | none => rfl
    | some found => simp [ih]

theorem ofText_eq_map (table : Table) (text : List Char) :
    ofText table text = (cut table text).map Prod.fst := by
  unfold ofText cut
  dsimp only
  cases table.lookup (String.ofList (text.takeWhile Modifier.isLetter)) with
  | some c => rfl
  | none => exact ofRun_eq_map table _ _

section

variable {table : Table} (proper : ∀ e ∈ table, e.1 ≠ "")

include proper

/-- **The cutting of a run of letters ends by itself.** -/
theorem cutRun_add (fuel extra : ℕ) :
    ∀ {letters : List Char}, letters.length ≤ fuel →
      cutRun table (fuel + extra) letters = cutRun table fuel letters := by
  induction fuel with
  | zero =>
    intro letters hl
    cases extra with
    | zero => rfl
    | succ extra =>
      rw [Nat.zero_add]
      unfold cutRun
      cases known : Hand.longest? table letters with
      | none => rfl
      | some found =>
        have := Hand.length_drop_of_longest? proper known
        omega
  | succ fuel ih =>
    intro letters hl
    rw [Nat.succ_add]
    simp only [cutRun]
    cases known : Hand.longest? table letters with
    | none => rfl
    | some found =>
      have := Hand.length_drop_of_longest? proper known
      simp only
      rw [ih (by omega)]

theorem length_cutRun_le (fuel : ℕ) :
    ∀ letters : List Char, (cutRun table fuel letters).length ≤ letters.length := by
  induction fuel with
  | zero => exact fun _ => Nat.zero_le _
  | succ fuel ih =>
    intro letters
    unfold cutRun
    cases known : Hand.longest? table letters with
    | none => exact Nat.zero_le _
    | some found =>
      have := Hand.length_drop_of_longest? proper known
      have := ih (letters.drop found.1.length)
      simp only [List.length_cons]
      omega

/-- No command that is cut off is empty. -/
theorem length_cut_le (text : List Char) : (cut table text).length ≤ text.length := by
  have letters := (List.takeWhile_prefix (l := text) Modifier.isLetter).length_le
  unfold cut
  dsimp only
  cases known : table.lookup (String.ofList (text.takeWhile Modifier.isLetter)) with
  | some c =>
    -- the empty text is no command
    have : text.takeWhile Modifier.isLetter ≠ [] := by
      intro e
      obtain ⟨front, back, rfl, -⟩ := List.lookup_eq_some_iff.1 known
      exact proper _ (List.mem_append_right front List.mem_cons_self) (by simp [e])
    have := List.length_pos_iff.2 this
    exact this.trans_le letters
  | none => exact (length_cutRun_le proper _ _).trans letters

end

/-! ## Tables -/

/-- A table of commands by letters, none of them twice. -/
structure Table.Proper (table : Table) : Prop where
  letters : ∀ e ∈ table, e.1.toList.all Modifier.isLetter = true
  lookup : ∀ e ∈ table, table.lookup e.1 = some e.2

theorem proper_ofKind (kind : DiceKind) : (ofKind kind).Proper := by
  constructor <;> cases kind <;> decide

theorem proper_ofPools : ofPools.Proper := ⟨by decide, by decide⟩

section

variable {table : Table} {p : Written} {text : List Char}

/-- What is cut off a run of letters stands at the front of what is left of them. -/
theorem exists_suffix_of_mem_cutRun {fuel : ℕ} : ∀ {letters : List Char},
    p ∈ cutRun table fuel letters →
      ∃ rest, rest <:+ letters ∧ Hand.longest? table rest = some (p.2, p.1) := by
  induction fuel with
  | zero =>
    intro letters h
    simp [cutRun] at h
  | succ fuel ih =>
    intro letters h
    unfold cutRun at h
    cases known : Hand.longest? table letters with
    | none => simp [known] at h
    | some found =>
      simp only [known, List.mem_cons] at h
      rcases h with rfl | h
      · exact ⟨letters, List.suffix_rfl, known⟩
      · obtain ⟨rest, suffix, found⟩ := ih h
        exact ⟨rest, suffix.trans (List.drop_suffix _ _), found⟩

/-- Nothing is cut off but what is there. -/
theorem mem_of_mem_cut (h : p ∈ cut table text) : ∀ c ∈ p.2, c ∈ text := by
  unfold cut at h
  dsimp only at h
  split at h
  · obtain rfl := List.mem_singleton.1 h
    exact fun c => id
  · intro c hc
    obtain ⟨rest, suffix, found⟩ := exists_suffix_of_mem_cutRun h
    obtain ⟨-, -, -, front⟩ := Hand.exists_of_longest? found
    exact (List.takeWhile_prefix _).subset (suffix.subset (front.subset hc))

/-- **The letters of a text that was cut off are the command that it was cut off for.** -/
theorem lookup_of_mem_cut (proper : table.Proper) (h : p ∈ cut table text) :
    table.lookup (String.ofList (p.2.takeWhile Modifier.isLetter)) = some p.1 := by
  unfold cut at h
  dsimp only at h
  cases known : table.lookup (String.ofList (text.takeWhile Modifier.isLetter)) with
  | some c =>
    rw [known] at h
    obtain rfl := List.mem_singleton.1 h
    exact known
  | none =>
    rw [known] at h
    obtain ⟨rest, -, found⟩ := exists_suffix_of_mem_cutRun h
    obtain ⟨n, mem, letters, -⟩ := Hand.exists_of_longest? found
    have whole : p.2.takeWhile Modifier.isLetter = p.2 := by
      rw [List.takeWhile_eq_self_iff, ← letters]
      exact List.all_eq_true.1 (proper.letters _ mem)
    rw [whole, ← letters, String.ofList_toList]
    exact proper.lookup _ mem

/-- **What was cut off is cut no further.** -/
theorem cut_of_mem_cut (proper : table.Proper) (h : p ∈ cut table text) : cut table p.2 = [p] := by
  unfold cut
  dsimp only
  rw [lookup_of_mem_cut proper h]

/-- What a modifier is cut into are commands of the table. -/
theorem exists_mem_of_mem_cut (proper : table.Proper) (h : p ∈ cut table text) :
    ∃ name, (name, p.1) ∈ table := by
  obtain ⟨front, back, rfl, -⟩ := List.lookup_eq_some_iff.1 (lookup_of_mem_cut proper h)
  exact ⟨_, List.mem_append_right front List.mem_cons_self⟩

end

end Command

namespace Hand

/-- How commands are carried out. -/
abbrev Performing := Command → List Char → Task Hand Bool

variable {table : Command.Table} (perform : Performing)

/-! ## Carrying out -/

/-- Carries out commands in order. -/
def carryOutEach : List Command.Written → Task Hand Unit
  | [] => pure ()
  | p :: ps => do
    carryOut perform p.1 p.2
    carryOutEach ps

theorem carryOutEach_append (ps qs : List Command.Written) :
    carryOutEach perform (ps ++ qs) = carryOutEach perform ps >>= fun _ => carryOutEach perform qs := by
  induction ps with
  | nil => rfl
  | cons p ps ih => simp only [List.cons_append, carryOutEach, ih, bind_assoc]

theorem carryOutRun_eq_carryOutEach (fuel : ℕ) (letters : List Char) :
    carryOutRun table perform fuel letters
      = carryOutEach perform (Command.cutRun table fuel letters) := by
  induction fuel generalizing letters with
  | zero => rfl
  | succ fuel ih =>
    unfold carryOutRun Command.cutRun
    cases longest? table letters with
    | none => rfl
    | some found => simp only [carryOutEach, ih]

theorem carryOutModifier_eq_carryOutEach (text : List Char) :
    carryOutModifier table perform text = carryOutEach perform (Command.cut table text) := by
  unfold carryOutModifier Command.cut
  dsimp only
  cases table.lookup (String.ofList (text.takeWhile Modifier.isLetter)) with
  | some c => simp only [carryOutEach, bind_pure_unit]
  | none => exact carryOutRun_eq_carryOutEach perform _ _

/-- **Carrying out modifiers is to carry out the commands that they are cut into.** -/
theorem carryOutAll_eq_carryOutEach (texts : List (List Char)) :
    carryOutAll table perform texts
      = carryOutEach perform (texts.flatMap (Command.cut table)) := by
  induction texts with
  | nil => rfl
  | cons text texts ih =>
    rw [List.flatMap_cons, carryOutEach_append, ← ih, ← carryOutModifier_eq_carryOutEach]
    rfl

end Hand

end DiceFormula
