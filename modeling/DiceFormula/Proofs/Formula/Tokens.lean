import DiceFormula.Proofs.Formula.Written
import Mathlib.Data.List.Chain

/-!
# Splitting into tokens

Splitting a text without groups into tokens drops the spaces outside of flavors, and nothing else
(`FormulaToken.flatMap_pieces_ofPieces`): the signs stand alone, and what is between signs and spaces
stays together. A flavor that stands by itself is put to the value before it, so that it is a token
of its own only at the start or behind a sign (`FormulaToken.isChain_ofPieces`). On the texts of the
tokens this is `FormulaToken.ofText_loses_spaces`.
-/

namespace DiceFormula

open Arithmetic (Sign)

namespace FormulaToken

/-! ## Flavors that stand by themselves -/

/-- Whether the token is a flavor with something in it, and nothing else. -/
def isLone : FormulaToken → Bool
  | sign _ => false
  | value ps => (flavorOnly? ps).isSome

/-- A token that is a flavor by itself is not put to a token before it only if that is a sign. -/
def MayFollow (t u : FormulaToken) : Prop := u.isLone = true → ∃ s, t = sign s

/-- A flavor that is put to a value does not stand by itself any more. -/
theorem flavorOnly?_append {qs ps : List Piece} (full : qs ≠ [])
    (h : (flavorOnly? ps).isSome = true) : flavorOnly? (qs ++ ps) = none := by
  obtain ⟨q, qs, rfl⟩ := List.exists_cons_of_ne_nil full
  unfold flavorOnly? at h
  split at h
  · cases qs <;> simp [flavorOnly?]
  · cases qs <;> simp [flavorOnly?]
  · cases h

theorem isChain_mergeFrom {done ts : List FormulaToken} (full : ∀ t ∈ done, t.IsFull)
    (hts : ∀ t ∈ ts, t.IsFull) (h : List.IsChain (flip MayFollow) done) :
    List.IsChain MayFollow (mergeFrom done ts) := by
  fun_induction mergeFrom done ts with
  | case1 done => exact List.isChain_reverse.2 h
  | case2 qs done ps ts hf ih =>
    obtain ⟨hqs, hdone⟩ := List.forall_mem_cons.1 full
    have notLone : (value (qs ++ ps)).isLone = false := by
      rw [isLone, flavorOnly?_append hqs hf]
      rfl
    refine ih (List.forall_mem_cons.2 ⟨List.append_ne_nil_of_left_ne_nil hqs _, hdone⟩)
      (List.forall_mem_cons.1 hts).2 ?_
    refine List.isChain_cons.2 ⟨fun t _ lone => ?_, h.tail⟩
    rw [notLone] at lone
    cases lone
  | case3 qs done ps ts hf ih =>
    obtain ⟨hps, hts⟩ := List.forall_mem_cons.1 hts
    refine ih (List.forall_mem_cons.2 ⟨hps, full⟩) hts ?_
    exact List.isChain_cons.2 ⟨fun t _ lone => absurd lone hf, h⟩
  | case4 done t ts hn ih =>
    obtain ⟨ht, hts⟩ := List.forall_mem_cons.1 hts
    refine ih (List.forall_mem_cons.2 ⟨ht, full⟩) hts ?_
    refine List.isChain_cons.2 ⟨fun u hu lone => ?_, h⟩
    obtain ⟨done, rfl⟩ := List.head?_eq_some_iff.1 hu
    cases t with
    | sign s => cases lone
    | value ps =>
      cases u with
      | sign s => exact ⟨s, rfl⟩
      | value qs => exact (hn qs done ps rfl rfl).elim

/-- **A flavor is a token by itself only at the start or behind a sign.** -/
theorem isChain_ofPieces (ps : List Piece) : List.IsChain MayFollow (ofPieces ps) :=
  isChain_mergeFrom (List.forall_mem_nil _) (isFull_splitFrom [] ps) List.isChain_nil

/-! ## Tokens of a text -/

/-- The token of a text without groups: a sign, or some of its atoms, which are neither spaces nor
signs. -/
inductive OfAtoms (as : List Atom) : FormulaToken → Prop
  | sign (s : Sign) : OfAtoms as (sign s)
  | value {bs : List Atom} : bs ⊆ as → (∀ b ∈ bs, b ≠ .char ' ' ∧ ∀ s : Sign, b ≠ .char s.char) →
      OfAtoms as (value (bs.map Piece.atom))

theorem ofAtoms_ofPieces (as : List Atom) : ∀ t ∈ ofPieces (as.map Piece.atom), t.OfAtoms as := by
  have within : ∀ t ∈ ofPieces (as.map Piece.atom), t.Within fun p =>
      ∃ a ∈ as, p = .atom a ∧ a ≠ .char ' ' ∧ ∀ s : Sign, a ≠ .char s.char := by
    refine fun t ht => (within_ofPieces _ t ht).mono ?_
    rintro p ⟨hp, plain⟩
    obtain ⟨a, ha, rfl⟩ := List.mem_map.1 hp
    refine ⟨a, ha, rfl, ?_, ?_⟩
    · rintro rfl
      exact (plain ' ' rfl).2 rfl
    · rintro s rfl
      have noSign := (plain s.char rfl).1
      rw [Sign.ofChar?_char] at noSign
      cases noSign
  intro t ht
  cases t with
  | sign s => exact .sign s
  | value ps =>
    have inside := within _ ht
    have noGroup : Piece.groups ps = [] := by
      refine List.filterMap_eq_nil_iff.2 fun p hp => ?_
      obtain ⟨a, -, rfl, -⟩ := inside p hp
      rfl
    obtain ⟨bs, rfl⟩ := Piece.exists_eq_map_atom noGroup
    refine .value (fun b hb => ?_) fun b hb => ?_
    all_goals
      obtain ⟨a, ha, e, plain⟩ := inside _ (List.mem_map_of_mem hb)
      obtain rfl := Piece.atom.inj e
    · exact ha
    · exact plain

variable {as : List Atom} {t : FormulaToken}

theorem OfAtoms.toList_text (h : t.OfAtoms as) : t.text.toList = t.pieces.flatMap Piece.written := by
  cases h with
  | sign s => simp [text, pieces, Piece.written, Atom.text]
  | value =>
    rw [text, Piece.render_map_atom, String.toList_ofList, pieces, Piece.written_map_atom]

/-- The text of a token is taken apart as the text it comes from. -/
theorem OfAtoms.scan_text (h : t.OfAtoms as) (neat : ∀ a ∈ as, a.Neat) :
    t.pieces = (Atom.scan t.text.toList).map Piece.atom := by
  cases h with
  | sign s => cases s <;> simp [text, pieces, Sign.char, Atom.scan]
  | value inside plain =>
    rw [text, Piece.render_map_atom, String.toList_ofList,
      Atom.scan_render fun b hb => neat b (inside hb)]
    rfl

end FormulaToken

/-- The text is nothing but a flavor with something in it. -/
def IsLoneFlavor (token : String) : Prop :=
  ∃ body, body ≠ [] ∧ Atom.scan token.toList = [.flavor body]

/-- The texts are the tokens of a text: without the spaces outside of flavors they make it up, each
is a sign or has neither signs nor spaces outside of flavors, and a flavor is a token by itself only
at the start or behind a sign. -/
structure Tokenizes (text : String) (tokens : List String) : Prop where
  whole : tokens.flatMap String.toList
    = Atom.render ((Atom.scan text.toList).filter (· ≠ .char ' '))
  full : ∀ token ∈ tokens, token ≠ ""
  parted : ∀ token ∈ tokens, (∃ s : Sign, token = s.char.toString)
    ∨ ∀ a ∈ Atom.scan token.toList, a ≠ .char ' ' ∧ ∀ s : Sign, a ≠ .char s.char
  attached : ∀ before token after, tokens = before ++ token :: after → IsLoneFlavor token →
    before = [] ∨ ∃ s : Sign, before.getLast? = some s.char.toString

namespace FormulaToken

theorem flatMap_text {as : List Atom} {ts : List FormulaToken} (h : ∀ t ∈ ts, t.OfAtoms as) :
    (ts.map text).flatMap String.toList = (ts.flatMap pieces).flatMap Piece.written := by
  rw [List.flatMap_map, List.flatMap_assoc]
  exact List.flatMap_congr fun t ht => (h t ht).toList_text

/-- A token whose text is a flavor and nothing else is that flavor. -/
theorem OfAtoms.isLone {as : List Atom} {t : FormulaToken} (h : t.OfAtoms as)
    (neat : ∀ a ∈ as, a.Neat) (lone : IsLoneFlavor t.text) : t.isLone = true := by
  obtain ⟨body, full, scanned⟩ := lone
  have pieces := h.scan_text neat
  rw [scanned] at pieces
  cases h with
  | sign s => cases pieces
  | @value bs =>
    have alone : bs.map Piece.atom = [.atom (.flavor body)] := pieces
    rw [FormulaToken.isLone, alone]
    simp [flavorOnly?, full]

theorem attached_of_isChain {as : List Atom} {ts : List FormulaToken}
    (h : ∀ t ∈ ts, t.OfAtoms as) (neat : ∀ a ∈ as, a.Neat) (chain : List.IsChain MayFollow ts)
    {before after : List String} {token : String} (split : ts.map text = before ++ token :: after)
    (lone : IsLoneFlavor token) :
    before = [] ∨ ∃ s : Sign, before.getLast? = some s.char.toString := by
  obtain ⟨front, back, rfl, rfl, hback⟩ := List.map_eq_append_iff.1 split
  obtain ⟨t, back, rfl, rfl, rfl⟩ := List.map_eq_cons_iff.1 hback
  have isLone := (h t (by simp)).isLone neat lone
  rcases List.eq_nil_or_concat front with rfl | ⟨front, u, rfl⟩
  · exact .inl rfl
  · obtain ⟨s, rfl⟩ := (List.isChain_append.1 chain).2.2 u (by simp) t (by simp) isLone
    exact .inr ⟨s, by simp [text]⟩

/-- **Splitting into tokens loses the spaces outside of flavors and nothing else**, in every text in
which the flavors are closed. -/
theorem ofText_loses_spaces {text : String} (closed : Atom.char '[' ∉ Atom.scan text.toList) :
    ∃ tokens, ofText text = .ok tokens ∧ Tokenizes text (tokens.map FormulaToken.text) := by
  have neat := Atom.neat_of_mem_scan closed
  have read : ofText text = .ok (ofPieces ((Atom.scan text.toList).map Piece.atom)) := by
    unfold ofText
    dsimp only
    rw [(any_isLoose _).2 closed, if_neg Bool.false_ne_true]
  have ofAtoms := ofAtoms_ofPieces (Atom.scan text.toList)
  refine ⟨_, read, ?_, ?_, ?_, ?_⟩
  · rw [flatMap_text ofAtoms, flatMap_pieces_ofPieces, List.filter_map, Piece.written_map_atom]
    refine congrArg Atom.render (List.filter_congr fun a _ => ?_)
    simp
  · rw [List.forall_mem_map]
    intro t ht
    have full := isFull_ofPieces _ t ht
    cases t with
    | sign s => cases s <;> decide
    | value ps => exact Piece.render_ne_empty full
  · rw [List.forall_mem_map]
    intro t ht
    cases ofAtoms t ht with
    | sign s => exact .inl ⟨s, rfl⟩
    | value inside plain =>
      refine .inr ?_
      rwa [FormulaToken.text, Piece.render_map_atom, String.toList_ofList,
        Atom.scan_render fun b hb => neat b (inside hb)]
  · intro before token after split lone
    exact attached_of_isChain ofAtoms neat (isChain_ofPieces _) split lone

/-- Flavors with spaces and signs in them, at the start, behind a value and behind a sign. -/
theorem ofText_loses_spaces_flavored :
    Atom.char '[' ∉ Atom.scan "[x] 2 d6[a + b] [c]+[d] [] 7%".toList
      ∧ ∃ tokens, ofText "[x] 2 d6[a + b] [c]+[d] [] 7%" = .ok tokens
        ∧ tokens.map FormulaToken.text = ["[x]", "2", "d6[a + b][c]", "+", "[d]", "[]", "7", "%"]
        ∧ Tokenizes "[x] 2 d6[a + b] [c]+[d] [] 7%" (tokens.map FormulaToken.text) := by
  have closed : Atom.char '[' ∉ Atom.scan "[x] 2 d6[a + b] [c]+[d] [] 7%".toList := by
    decide +kernel
  obtain ⟨tokens, read, tokenizes⟩ := ofText_loses_spaces closed
  have texts : (ofText "[x] 2 d6[a + b] [c]+[d] [] 7%").toOption.map (·.map FormulaToken.text)
      = some ["[x]", "2", "d6[a + b][c]", "+", "[d]", "[]", "7", "%"] := by decide +kernel
  rw [read] at texts
  exact ⟨closed, tokens, read, Option.some.inj texts, tokenizes⟩

end FormulaToken

end DiceFormula
