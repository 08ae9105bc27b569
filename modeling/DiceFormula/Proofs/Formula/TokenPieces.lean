import DiceFormula.Formula.Token

/-!
# What tokens are made of

Splitting a formula without groups into tokens drops the spaces between them, and puts every lone
flavor to the value before it. No token is empty (`FormulaToken.isFull_ofPieces`), no sign or space
stands in a value (`FormulaToken.within_ofPieces`), and all other pieces are kept in their order
(`FormulaToken.flatMap_pieces_ofPieces`).
-/

namespace DiceFormula

open Arithmetic (Sign)

/-- The piece may stand in a value: it is no space and no sign. -/
def Piece.InValue (p : Piece) : Prop :=
  ∀ c, p = .atom (.char c) → Sign.ofChar? c = none ∧ c ≠ ' '

namespace FormulaToken

/-! ## No token is empty -/

/-- The token is an operator, or a value with something in it. -/
def IsFull : FormulaToken → Prop
  | sign _ => True
  | value ps => ps ≠ []

theorem isFull_flush {current : List Piece} {rest : List FormulaToken}
    (h : ∀ t ∈ rest, t.IsFull) : ∀ t ∈ flush current rest, t.IsFull := by
  unfold flush
  by_cases hc : current.isEmpty = true
  · rw [if_pos hc]
    exact h
  · rw [if_neg hc]
    refine List.forall_mem_cons.2 ⟨?_, h⟩
    simpa [IsFull] using hc

theorem isFull_splitFrom (current ps : List Piece) :
    ∀ t ∈ splitFrom current ps, t.IsFull := by
  fun_induction splitFrom current ps with
  | case1 current => exact isFull_flush (List.forall_mem_nil _)
  | case2 current c ps s hs ih =>
    exact isFull_flush (List.forall_mem_cons.2 ⟨trivial, ih⟩)
  | case3 current c ps hs hc ih => exact isFull_flush ih
  | case4 current c ps hs hc ih => exact ih
  | case5 current p ps hp ih => exact ih

theorem isFull_mergeFrom (done ts : List FormulaToken) (hd : ∀ t ∈ done, t.IsFull)
    (ht : ∀ t ∈ ts, t.IsFull) : ∀ t ∈ mergeFrom done ts, t.IsFull := by
  fun_induction mergeFrom done ts with
  | case1 done =>
    intro t h
    exact hd t (List.mem_reverse.1 h)
  | case2 qs done ps ts hf ih =>
    obtain ⟨hq, hd⟩ := List.forall_mem_cons.1 hd
    refine ih (List.forall_mem_cons.2 ⟨?_, hd⟩) (List.forall_mem_cons.1 ht).2
    exact List.append_ne_nil_of_left_ne_nil hq _
  | case3 qs done ps ts hf ih =>
    obtain ⟨hp, ht⟩ := List.forall_mem_cons.1 ht
    exact ih (List.forall_mem_cons.2 ⟨hp, hd⟩) ht
  | case4 done t ts hn ih =>
    obtain ⟨hp, ht⟩ := List.forall_mem_cons.1 ht
    exact ih (List.forall_mem_cons.2 ⟨hp, hd⟩) ht

theorem isFull_ofPieces (ps : List Piece) : ∀ t ∈ ofPieces ps, t.IsFull :=
  isFull_mergeFrom [] _ (List.forall_mem_nil _) (isFull_splitFrom [] ps)

/-! ## Values -/

/-- All pieces of the token are of the given kind. -/
def Within (P : Piece → Prop) : FormulaToken → Prop
  | sign _ => True
  | value ps => ∀ p ∈ ps, P p

theorem Within.mono {P Q : Piece → Prop} {t : FormulaToken} (h : t.Within P)
    (hPQ : ∀ p, P p → Q p) : t.Within Q := by
  cases t with
  | sign s => trivial
  | value ps => exact fun p hp => hPQ p (h p hp)

theorem within_flush {P : Piece → Prop} {current : List Piece} {rest : List FormulaToken}
    (hc : ∀ p ∈ current, P p) (h : ∀ t ∈ rest, t.Within P) :
    ∀ t ∈ flush current rest, t.Within P := by
  unfold flush
  by_cases none : current.isEmpty = true
  · rw [if_pos none]
    exact h
  · rw [if_neg none]
    refine List.forall_mem_cons.2 ⟨?_, h⟩
    intro p hp
    exact hc p (List.mem_reverse.1 hp)

/-- Signs and spaces do not get into values. -/
theorem within_splitFrom {P : Piece → Prop} {current ps : List Piece} (hc : ∀ p ∈ current, P p)
    (hp : ∀ p ∈ ps, p.InValue → P p) :
    ∀ t ∈ splitFrom current ps, t.Within P := by
  fun_induction splitFrom current ps with
  | case1 current => exact within_flush hc (List.forall_mem_nil _)
  | case2 current c ps s hs ih =>
    have rest := ih (List.forall_mem_nil _) (List.forall_mem_cons.1 hp).2
    exact within_flush hc (List.forall_mem_cons.2 ⟨trivial, rest⟩)
  | case3 current c ps hs hb ih =>
    exact within_flush hc (ih (List.forall_mem_nil _) (List.forall_mem_cons.1 hp).2)
  | case4 current c ps hs hb ih =>
    obtain ⟨hp, hps⟩ := List.forall_mem_cons.1 hp
    have head : P (.atom (.char c)) := by
      refine hp ?_
      intro d hd
      cases hd
      exact ⟨hs, by simpa using hb⟩
    exact ih (List.forall_mem_cons.2 ⟨head, hc⟩) hps
  | case5 current p ps hchar ih =>
    obtain ⟨hp, hps⟩ := List.forall_mem_cons.1 hp
    exact ih (List.forall_mem_cons.2 ⟨hp fun c hc => (hchar c hc).elim, hc⟩) hps

theorem within_mergeFrom {P : Piece → Prop} (done ts : List FormulaToken)
    (hd : ∀ t ∈ done, t.Within P) (ht : ∀ t ∈ ts, t.Within P) :
    ∀ t ∈ mergeFrom done ts, t.Within P := by
  fun_induction mergeFrom done ts with
  | case1 done =>
    intro t h
    exact hd t (List.mem_reverse.1 h)
  | case2 qs done ps ts hf ih =>
    obtain ⟨hq, hd⟩ := List.forall_mem_cons.1 hd
    obtain ⟨hp, ht⟩ := List.forall_mem_cons.1 ht
    exact ih (List.forall_mem_cons.2 ⟨List.forall_mem_append.2 ⟨hq, hp⟩, hd⟩) ht
  | case3 qs done ps ts hf ih =>
    obtain ⟨hp, ht⟩ := List.forall_mem_cons.1 ht
    exact ih (List.forall_mem_cons.2 ⟨hp, hd⟩) ht
  | case4 done t ts hn ih =>
    obtain ⟨hp, ht⟩ := List.forall_mem_cons.1 ht
    exact ih (List.forall_mem_cons.2 ⟨hp, hd⟩) ht

/-- Values are made of the pieces of the formula that are neither signs nor spaces. -/
theorem within_ofPieces (ps : List Piece) :
    ∀ t ∈ ofPieces ps, t.Within fun p => p ∈ ps ∧ p.InValue :=
  within_mergeFrom [] _ (List.forall_mem_nil _)
    (within_splitFrom (List.forall_mem_nil _) fun _ hp plain => ⟨hp, plain⟩)

/-! ## Nothing is lost -/

/-- The pieces of a token. -/
def pieces : FormulaToken → List Piece
  | sign s => [.atom (.char s.char)]
  | value ps => ps

theorem flatMap_pieces_flush (current : List Piece) (rest : List FormulaToken) :
    (flush current rest).flatMap pieces = current.reverse ++ rest.flatMap pieces := by
  unfold flush
  split
  · next empty =>
    rw [List.isEmpty_iff.1 empty]
    rfl
  · rfl

/-- Splitting drops the spaces between the pieces. -/
theorem flatMap_pieces_splitFrom (current ps : List Piece) :
    (splitFrom current ps).flatMap pieces
      = current.reverse ++ ps.filter (· ≠ .atom (.char ' ')) := by
  fun_induction splitFrom current ps with
  | case1 current => exact flatMap_pieces_flush current []
  | case2 current c ps s hs ih =>
    obtain rfl := Sign.char_of_ofChar? hs
    have notSpace : s.char ≠ ' ' := by cases s <;> decide
    rw [flatMap_pieces_flush, List.flatMap_cons, ih, List.filter_cons_of_pos (by simpa using notSpace)]
    rfl
  | case3 current c ps hs hb ih =>
    obtain rfl := beq_iff_eq.1 hb
    rw [flatMap_pieces_flush, ih, List.filter_cons_of_neg (by simp)]
    rfl
  | case4 current c ps hs hb ih =>
    have notSpace : c ≠ ' ' := fun e => hb (beq_iff_eq.2 e)
    rw [ih, List.filter_cons_of_pos (by simpa using notSpace), List.reverse_cons, List.append_assoc,
      List.singleton_append]
  | case5 current p ps hchar ih =>
    have notSpace : p ≠ .atom (.char ' ') := fun e => hchar ' ' e
    rw [ih, List.filter_cons_of_pos (by simpa using notSpace), List.reverse_cons, List.append_assoc,
      List.singleton_append]

/-- Putting flavors to the values before them moves no piece. -/
theorem flatMap_pieces_mergeFrom (done ts : List FormulaToken) :
    (mergeFrom done ts).flatMap pieces = done.reverse.flatMap pieces ++ ts.flatMap pieces := by
  fun_induction mergeFrom done ts with
  | case1 done => simp
  | case2 qs done ps ts hf ih => simp [ih, pieces]
  | case3 qs done ps ts hf ih => simp [ih]
  | case4 done t ts hn ih => simp [ih]

theorem flatMap_pieces_ofPieces (ps : List Piece) :
    (ofPieces ps).flatMap pieces = ps.filter (· ≠ .atom (.char ' ')) := by
  rw [ofPieces, flatMap_pieces_mergeFrom, flatMap_pieces_splitFrom]
  rfl

end FormulaToken

end DiceFormula
