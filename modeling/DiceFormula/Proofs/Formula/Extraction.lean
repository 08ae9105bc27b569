import DiceFormula.Formula.Group

/-!
# How groups are cut out

`Piece.extract` goes atom by atom: outside of groups an atom is a piece or opens a group, inside of
one it belongs to the group or closes it. Here is one equation for each of these steps, and
`Piece.Extracts`, which says the same of a formula that is cut up in the end
(`Piece.extract_eq_ok_iff`). What holds of the pieces of a formula is proved by induction on it.
-/

namespace DiceFormula

/-! ## Brackets -/

namespace Bracket

theorem opening_ne (b : Bracket) : b.opening ≠ '[' := by cases b <;> decide

theorem closing_ne (b : Bracket) : b.closing ≠ '[' := by cases b <;> decide

theorem closing_ne_opening (b : Bracket) : b.closing ≠ b.opening := by cases b <;> decide

theorem ofOpening?_opening (b : Bracket) : ofOpening? b.opening = some b := by cases b <;> rfl

theorem eq_opening_of_ofOpening? {c : Char} {b : Bracket} (h : ofOpening? c = some b) :
    c = b.opening := by
  have := List.find?_some h
  exact (beq_iff_eq.1 this).symm

/-- How many brackets of a kind are open after some atoms, if `depth` of them were open before; none
if one is closed too many. -/
def level (b : Bracket) : Nat → List Atom → Option Nat
  | depth, [] => some depth
  | depth, .char c :: as =>
    if c == b.opening then b.level (depth + 1) as
    else if c == b.closing then
      match depth with
      | 0 => none
      | depth + 1 => b.level depth as
    else b.level depth as
  | depth, .flavor _ :: as => b.level depth as

theorem level_append {b : Bracket} {depth : Nat} {as bs : List Atom} :
    b.level depth (as ++ bs) = (b.level depth as).bind fun depth => b.level depth bs := by
  fun_induction b.level depth as with
  | case1 depth => rfl
  | case2 depth c as hc ih => simp only [List.cons_append, level, hc, if_true, ih]
  | case3 c as hopen hclose => simp [level, hopen, hclose]
  | case4 c as hopen hclose depth ih =>
    simp only [List.cons_append, level, hopen, hclose, if_true, ih]
    rfl
  | case5 depth c as hopen hclose ih => simp only [List.cons_append, level, hopen, hclose, ih]; rfl
  | case6 depth body as ih => simp only [List.cons_append, level, ih]

theorem level_or_closing (b : Bracket) (depth : Nat) (a : Atom) :
    (∃ d, b.level depth [a] = some d) ∨ depth = 0 ∧ a = .char b.closing := by
  cases a with
  | flavor body => exact .inl ⟨depth, rfl⟩
  | char c =>
    by_cases opens : (c == b.opening) = true
    · exact .inl ⟨depth + 1, by simp [level, opens]⟩
    · by_cases closes : (c == b.closing) = true
      · cases depth with
        | zero => exact .inr ⟨rfl, by rw [beq_iff_eq.1 closes]⟩
        | succ depth => exact .inl ⟨depth, by simp [level, opens, closes]⟩
      · exact .inl ⟨depth, by simp [level, opens, closes]⟩

end Bracket

/-! ## Functions -/

namespace Group

/-- The name of a function: letters and digits, at least two of them, and a letter first. -/
def IsName (name : List Char) : Prop :=
  ∃ c d cs, name = c :: d :: cs ∧ c.isAlpha = true ∧ ∀ x ∈ name, x.isAlphanum = true

/-- What stands before the bracket of a group: the name of a function, if there is one, and `gap`
behind the name. -/
structure Head (b : Bracket) (fn : Option String) (gap : List Char) : Prop where
  name : ∀ name, fn = some name → b = .paren ∧ IsName name.toList
  gap : gap = [] ∨ gap = ['\n'] ∧ fn.isSome = true

theorem head_none (b : Bracket) : Head b none [] where
  name _ h := by cases h
  gap := .inl rfl

end Group

namespace Piece

theorem of_nameChar? {p : Piece} {c : Char} (h : nameChar? p = some c) :
    p = .atom (.char c) ∧ c.isAlphanum = true := by
  unfold nameChar? at h
  split at h
  · split at h
    · next alphanum =>
      obtain rfl := Option.some.inj h
      exact ⟨rfl, alphanum⟩
    · cases h
  · cases h

/-- The characters that are taken are letters and digits, and nothing else is taken. -/
theorem of_takeName (ps : List Piece) :
    ps = (takeName ps).1.map (fun c => .atom (.char c)) ++ (takeName ps).2
      ∧ ∀ c ∈ (takeName ps).1, c.isAlphanum = true := by
  fun_induction takeName ps with
  | case1 => exact ⟨rfl, nofun⟩
  | case2 p ps c hc cs rest taken ih =>
    rw [taken] at ih
    obtain ⟨rfl, alphanum⟩ := of_nameChar? hc
    exact ⟨congrArg _ ih.1, List.forall_mem_cons.2 ⟨alphanum, ih.2⟩⟩
  | case3 p ps hp => exact ⟨rfl, nofun⟩

/-- What a parenthesis takes along is the name of its function, and a line feed perhaps. -/
theorem head_takeFunction (before : List Piece) :
    ∃ gap, Group.Head .paren (takeFunction before).1 gap
      ∧ before = (((takeFunction before).1.getD "").toList ++ gap).reverse.map
          (fun c => .atom (.char c)) ++ (takeFunction before).2 := by
  fun_cases takeFunction before with
  | case1 named reversed rest taken c d cs hname hword =>
    obtain ⟨whole, alphanum⟩ := of_takeName named
    rw [taken] at whole alphanum
    rw [← hname]
    have isName : Group.IsName (String.ofList reversed.reverse).toList := by
      rw [String.toList_ofList]
      exact ⟨c, d, cs, hname, (Bool.and_eq_true_iff.1 hword).1,
        fun x hx => alphanum x (List.mem_reverse.1 hx)⟩
    have head {gap : List Char} (h : gap = [] ∨ gap = ['\n']) :
        Group.Head .paren (some (String.ofList reversed.reverse)) gap :=
      ⟨fun name e => ⟨rfl, Option.some.inj e ▸ isName⟩, h.imp_right fun h => ⟨h, rfl⟩⟩
    rw [Option.getD_some, String.toList_ofList]
    simp only [List.reverse_append, List.reverse_reverse, List.map_append, List.append_assoc,
      ← whole]
    unfold named
    split
    · exact ⟨['\n'], head (.inr rfl), rfl⟩
    · exact ⟨[], head (.inl rfl), rfl⟩
  | case2 | case3 => exact ⟨[], Group.head_none _, rfl⟩

theorem head_openGroup (b : Bracket) (done : List Piece) :
    ∃ fn gap rest, openGroup b done = (⟨b, fn, 0, []⟩, rest) ∧ Group.Head b fn gap
      ∧ done = ((fn.getD "").toList ++ gap).reverse.map (fun c => .atom (.char c)) ++ rest := by
  cases b with
  | paren =>
    obtain ⟨gap, head, whole⟩ := head_takeFunction done
    exact ⟨_, gap, _, rfl, head, whole⟩
  | brace => exact ⟨none, [], done, rfl, Group.head_none _, rfl⟩

theorem openGroup_subset (b : Bracket) (done : List Piece) : (openGroup b done).2 ⊆ done := by
  obtain ⟨fn, gap, rest, opened, -, whole⟩ := head_openGroup b done
  rw [opened]
  exact whole ▸ List.subset_append_right _ _

/-- Groups are not part of a name. -/
theorem group_mem_openGroup {g : Group} {done : List Piece} (h : group g ∈ done) (b : Bracket) :
    group g ∈ (openGroup b done).2 := by
  obtain ⟨fn, gap, rest, opened, -, whole⟩ := head_openGroup b done
  rw [opened]
  rw [whole] at h
  exact (List.mem_append.1 h).resolve_left (by simp)

end Piece

/-! ## Single atoms -/

/-- The atom is no bracket. -/
def Atom.Bare : Atom → Prop
  | char c => c ≠ '[' ∧ Bracket.ofOpening? c = none ∧ Bracket.isClosing c = false
  | flavor _ => True

namespace Piece

variable {text : String} {b : Bracket} {fn : Option String} {depth d : Nat}
  {inner as : List Atom} {a : Atom} {ps done : List Piece} {open? : Option Pending}

/-- What is read inside a group belongs to it while its brackets are not closed too often. -/
theorem Pending.read_of_level (h : b.level depth [a] = some d) :
    Pending.read ⟨b, fn, depth, inner⟩ a = .inl ⟨b, fn, d, a :: inner⟩ := by
  cases a with
  | flavor body =>
    obtain rfl := Option.some.inj h
    rfl
  | char c =>
    simp only [Bracket.level] at h
    rw [Pending.read]
    dsimp only
    by_cases opens : (c == b.opening) = true
    · rw [if_pos opens] at h ⊢
      obtain rfl := Option.some.inj h
      rfl
    · rw [if_neg opens] at h ⊢
      by_cases closes : (c == b.closing) = true
      · rw [if_pos closes] at h ⊢
        cases depth with
        | zero => cases h
        | succ depth =>
          obtain rfl := Option.some.inj h
          rfl
      · rw [if_neg closes] at h ⊢
        obtain rfl := Option.some.inj h
        rfl

/-- The bracket that closes no other one closes the group. -/
theorem Pending.read_closing :
    Pending.read ⟨b, fn, 0, inner⟩ (.char b.closing) = .inr (Pending.close ⟨b, fn, 0, inner⟩) := by
  rw [Pending.read]
  dsimp only
  rw [if_neg (by simpa using b.closing_ne_opening), if_pos (beq_self_eq_true _)]

theorem extract_inside (loose : a ≠ .char '[') (level : b.level depth [a] = some d) :
    extract text (some ⟨b, fn, depth, inner⟩) done (a :: as)
      = extract text (some ⟨b, fn, d, a :: inner⟩) done as := by
  rw [extract, Pending.read_of_level level]
  exact loose

theorem extract_closing :
    extract text (some ⟨b, fn, 0, inner⟩) done (.char b.closing :: as)
      = extract text none (.group (Pending.close ⟨b, fn, 0, inner⟩) :: done) as := by
  rw [extract, Pending.read_closing]
  exact fun e => b.closing_ne (Atom.char.inj e)

theorem extract_opening :
    extract text none done (.char b.opening :: as)
      = extract text (some (openGroup b done).1) (openGroup b done).2 as := by
  rw [extract, b.ofOpening?_opening]
  exact b.opening_ne

theorem extract_bare (h : a.Bare) :
    extract text none done (a :: as) = extract text none (.atom a :: done) as := by
  cases a with
  | char c =>
    obtain ⟨loose, opening, closing⟩ := h
    rw [extract, opening]
    · dsimp only
      rw [closing, if_neg Bool.false_ne_true]
    · exact loose
  | flavor body => rw [extract] <;> nofun

/-! ## A whole formula -/

/-- From here on the formula is cut into the pieces `ps`. -/
inductive Extracts (ps : List Piece) : Option Pending → List Piece → List Atom → Prop
  | nil : Extracts ps none ps.reverse []
  | inside {b : Bracket} {fn : Option String} {depth d : Nat} {inner as : List Atom} {a : Atom}
      {done : List Piece} (loose : a ≠ .char '[') (level : b.level depth [a] = some d)
      (rest : Extracts ps (some ⟨b, fn, d, a :: inner⟩) done as) :
      Extracts ps (some ⟨b, fn, depth, inner⟩) done (a :: as)
  | closing {b : Bracket} {fn : Option String} {inner as : List Atom} {done : List Piece}
      (rest : Extracts ps none (.group (Pending.close ⟨b, fn, 0, inner⟩) :: done) as) :
      Extracts ps (some ⟨b, fn, 0, inner⟩) done (.char b.closing :: as)
  | opening {b : Bracket} {as : List Atom} {done : List Piece}
      (rest : Extracts ps (some (openGroup b done).1) (openGroup b done).2 as) :
      Extracts ps none done (.char b.opening :: as)
  | bare {a : Atom} {as : List Atom} {done : List Piece} (bare : a.Bare)
      (rest : Extracts ps none (.atom a :: done) as) : Extracts ps none done (a :: as)

/-- **Whether a formula is cut up, and into what, can be read step by step.** -/
theorem extract_eq_ok_iff : extract text open? done as = .ok ps ↔ Extracts ps open? done as := by
  constructor
  · intro h
    fun_induction extract text open? done as with
    | case1 done =>
      obtain rfl := Except.ok.inj h
      have := @Extracts.nil done.reverse
      rwa [List.reverse_reverse] at this
    | case2 | case3 | case7 => cases h
    | case4 p done a as loose q hq ih =>
      obtain ⟨d, level⟩ | ⟨depth, rfl⟩ := p.bracket.level_or_closing p.depth a
      · obtain rfl := Sum.inl.inj ((Pending.read_of_level level).symm.trans hq)
        exact .inside loose level (ih h)
      · obtain ⟨b, fn, depth, inner⟩ := p
        subst depth
        cases Pending.read_closing.symm.trans hq
    | case5 p done a as loose g hg ih =>
      obtain ⟨d, level⟩ | ⟨depth, rfl⟩ := p.bracket.level_or_closing p.depth a
      · cases (Pending.read_of_level level).symm.trans hg
      · obtain ⟨b, fn, depth, inner⟩ := p
        subst depth
        obtain rfl := Sum.inr.inj (Pending.read_closing.symm.trans hg)
        exact .closing (ih h)
    | case6 done c as loose b hb p rest opened ih =>
      obtain rfl := Bracket.eq_opening_of_ofOpening? hb
      have cut := ih h
      refine .opening ?_
      rwa [opened]
    | case8 done c as loose hopening hclosing ih =>
      exact .bare ⟨loose, hopening, by simpa using hclosing⟩ (ih h)
    | case9 done a as loose hchar ih =>
      refine .bare ?_ (ih h)
      cases a with
      | char c => exact absurd rfl (hchar c)
      | flavor body => trivial
  · intro h
    induction h with
    | nil => rw [extract, List.reverse_reverse]
    | inside loose level rest ih => rw [extract_inside loose level, ih]
    | closing rest ih => rw [extract_closing, ih]
    | opening rest ih => rw [extract_opening, ih]
    | bare bare rest ih => rw [extract_bare bare, ih]

theorem ofText_eq_ok_iff {formula : String} :
    ofText formula = .ok ps ↔ Extracts ps none [] (Atom.scan formula.toList) := extract_eq_ok_iff

end Piece

end DiceFormula
