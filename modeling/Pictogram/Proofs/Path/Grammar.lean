import Pictogram.Path.Trace
import Pictogram.Proofs.Decimal.Munch

/-! # The grammar of path data

Path data falls into separators, numerals and single units; at each place the longest numeral is
taken (`Lexes`).  There is exactly one way to do so (`existsUnique_lexes`).  A spelling is a letter
with its numerals; `PathSpelling.Admissible` says which letters there are and how many numerals each
may have, and `Spells d spellings` that `d` falls into the lexemes of admissible spellings.

Parsing succeeds exactly on path data that is spelled so, and gives the commands of the spellings
(`parse_of_spells`, `spells_of_parse`). -/

namespace Pictogram

inductive PathLexeme where
  | numeral (n : Numeral)
  | unit (u : CodeUnit)
deriving DecidableEq, Repr

namespace PathData

/-- The lexemes of path data, without the separators. -/
inductive Lexes : Text → List PathLexeme → Prop
  | nil : Lexes [] []
  | separator {u : CodeUnit} {t : Text} {ls : List PathLexeme} :
      Numeral.isSeparator u → Lexes t ls → Lexes (u :: t) ls
  | numeral {n : Numeral} {t : Text} {ls : List PathLexeme} :
      n.Longest t → Lexes t ls → Lexes (n.text ++ t) (.numeral n :: ls)
  | unit {u : CodeUnit} {t : Text} {ls : List PathLexeme} :
      ¬ Numeral.isSeparator u → (∀ (n : Numeral) (r : Text), n.WellFormed → u :: t ≠ n.text ++ r) →
      Lexes t ls → Lexes (u :: t) (.unit u :: ls)

/-! ### One lexeme -/

/-- Numerals do not begin with a separator. -/
theorem not_isSeparator_of_text {n : Numeral} (wf : n.WellFormed) {u : CodeUnit} {t r : Text}
    (h : n.text ++ r = u :: t) : Numeral.isSeparator u = false := by
  obtain ⟨negative, whole, fraction⟩ := n
  have hdigit : ∀ d : Digit, Numeral.isSeparator d.unit = false := by decide
  cases negative with
  | true =>
      obtain ⟨rfl, _⟩ := List.cons.inj h
      decide
  | false =>
      cases whole with
      | cons d whole =>
          obtain ⟨rfl, _⟩ := List.cons.inj h
          exact hdigit d
      | nil =>
          cases fraction with
          | none => simp [Numeral.WellFormed, Numeral.fractionDigits] at wf
          | some ds =>
              obtain ⟨rfl, _⟩ := List.cons.inj h
              decide

theorem lexes_skipSeparators {t : Text} {ls : List PathLexeme} :
    Lexes (Numeral.skipSeparators t) ls ↔ Lexes t ls := by
  induction t with
  | nil => rfl
  | cons u t ih =>
      unfold Numeral.skipSeparators at ih ⊢
      cases hu : Numeral.isSeparator u with
      | false => rw [List.dropWhile_cons_of_neg (by simp [hu])]
      | true =>
          rw [List.dropWhile_cons_of_pos hu, ih]
          refine ⟨.separator hu, ?_⟩
          intro h
          generalize e : u :: t = d at h
          cases h with
          | nil => cases e
          | separator _ h => obtain ⟨_, rfl⟩ := List.cons.inj e; exact h
          | numeral hn _ => rw [not_isSeparator_of_text hn.1 e.symm] at hu; cases hu
          | unit hu' _ _ => obtain ⟨rfl, _⟩ := List.cons.inj e; exact absurd hu hu'

theorem lexes_nil_iff {ls : List PathLexeme} : Lexes [] ls ↔ ls = [] := by
  constructor
  · intro h
    generalize e : ([] : Text) = d at h
    cases h with
    | nil => rfl
    | separator => cases e
    | numeral hn _ =>
        have := List.append_eq_nil_iff.mp e.symm
        exact absurd this.1 (Numeral.text_ne_nil hn.1)
    | unit => cases e
  · rintro rfl
    exact .nil

/-- Where a numeral begins, the longest one is the first lexeme. -/
theorem lexes_numeral_iff {t rest : Text} {n : Numeral} {ls : List PathLexeme}
    (h : Numeral.scan? t = some (n, rest)) :
    Lexes t ls ↔ ∃ ls', ls = .numeral n :: ls' ∧ Lexes rest ls' := by
  obtain ⟨rfl, longest⟩ := Numeral.scan?_eq_some_iff.mp h
  constructor
  · intro hl
    generalize e : n.text ++ rest = d at hl
    cases hl with
    | nil => exact absurd (List.append_eq_nil_iff.mp e).1 (Numeral.text_ne_nil longest.1)
    | separator hu _ => rw [not_isSeparator_of_text longest.1 e] at hu; cases hu
    | @numeral m t ls hm hl =>
        have h' := Numeral.scan?_eq_some_iff.mpr ⟨rfl, hm⟩
        rw [← e, h] at h'
        obtain ⟨rfl, rfl⟩ := Prod.mk.inj (Option.some.inj h')
        exact ⟨ls, rfl, hl⟩
    | unit _ hn _ => exact absurd e.symm (hn n rest longest.1)
  · rintro ⟨ls', rfl, hl⟩
    exact .numeral longest hl

/-- Elsewhere a unit that is no separator is a lexeme by itself. -/
theorem lexes_unit_iff {u : CodeUnit} {t : Text} {ls : List PathLexeme} (hu : ¬ Numeral.isSeparator u)
    (h : Numeral.scan? (u :: t) = none) : Lexes (u :: t) ls ↔ ∃ ls', ls = .unit u :: ls' ∧ Lexes t ls' := by
  have hn := Numeral.scan?_eq_none_iff.mp h
  constructor
  · intro hl
    generalize e : u :: t = d at hl
    cases hl with
    | nil => cases e
    | separator hu' _ => obtain ⟨rfl, _⟩ := List.cons.inj e; exact absurd hu' hu
    | numeral hm _ => exact absurd e (hn _ _ hm.1)
    | unit _ _ hl =>
        obtain ⟨rfl, rfl⟩ := List.cons.inj e
        exact ⟨_, rfl, hl⟩
  · rintro ⟨ls', rfl, hl⟩
    exact .unit hu hn hl

theorem not_isSeparator_of_skipSeparators {d t : Text} {u : CodeUnit}
    (h : Numeral.skipSeparators d = u :: t) : ¬ Numeral.isSeparator u := by
  intro hu
  have := List.head?_dropWhile_not Numeral.isSeparator d
  unfold Numeral.skipSeparators at h
  rw [h] at this
  simp [hu] at this

/-- Path data falls into lexemes in exactly one way. -/
theorem existsUnique_lexes (d : Text) : ∃ ls, Lexes d ls ∧ ∀ ls', Lexes d ls' → ls' = ls := by
  induction hk : d.length using Nat.strongRecOn generalizing d with
  | ind k ih =>
      simp only [← lexes_skipSeparators (t := d)]
      have hle := Numeral.length_skipSeparators_le d
      cases hs : Numeral.skipSeparators d with
      | nil => exact ⟨[], .nil, fun ls' h => lexes_nil_iff.mp h⟩
      | cons u t =>
          rw [hs] at hle
          cases hn : Numeral.scan? (u :: t) with
          | some p =>
              obtain ⟨n, rest⟩ := p
              have hlt := Numeral.length_lt_of_scan? hn
              obtain ⟨ls, hl, unique⟩ := ih rest.length (by omega) rest rfl
              refine ⟨.numeral n :: ls, (lexes_numeral_iff hn).mpr ⟨ls, rfl, hl⟩, ?_⟩
              intro ls' h
              obtain ⟨ls'', rfl, hl'⟩ := (lexes_numeral_iff hn).mp h
              rw [unique ls'' hl']
          | none =>
              have hu := not_isSeparator_of_skipSeparators hs
              obtain ⟨ls, hl, unique⟩ := ih t.length (by simp at hle; omega) t rfl
              refine ⟨.unit u :: ls, (lexes_unit_iff hu hn).mpr ⟨ls, rfl, hl⟩, ?_⟩
              intro ls' h
              obtain ⟨ls'', rfl, hl'⟩ := (lexes_unit_iff hu hn).mp h
              rw [unique ls'' hl']

/-! ### Runs of numerals -/

theorem list_of_scan?_eq_some {t rest : Text} {n : Numeral}
    (h : Numeral.scan? (Numeral.skipSeparators t) = some (n, rest)) :
    Numeral.list t = (n :: (Numeral.list rest).1, (Numeral.list rest).2) := by
  rw [Numeral.list]
  split <;> simp_all

theorem list_of_scan?_eq_none {t : Text} (h : Numeral.scan? (Numeral.skipSeparators t) = none) :
    Numeral.list t = ([], Numeral.skipSeparators t) := by
  rw [Numeral.list]
  split <;> simp_all

/-- The numerals that a text begins with are its first lexemes. -/
theorem lexes_list {t : Text} {ls : List PathLexeme} (h : Lexes (Numeral.list t).2 ls) :
    Lexes t ((Numeral.list t).1.map .numeral ++ ls) := by
  fun_induction Numeral.list t with
  | case1 t hs => exact lexes_skipSeparators.mp h
  | case2 t n rest hs _ ns rest' e ih =>
      rw [e] at ih
      exact lexes_skipSeparators.mp ((lexes_numeral_iff hs).mpr ⟨_, rfl, ih h⟩)

/-- Lexemes that are numerals up to a first one that is none are read as a list. -/
theorem list_of_lexes {t : Text} {ns : List Numeral} {ls : List PathLexeme}
    (h : Lexes t (ns.map .numeral ++ ls)) (hls : ∀ n, ls.head? ≠ some (.numeral n)) :
    (Numeral.list t).1 = ns ∧ Lexes (Numeral.list t).2 ls := by
  induction ns generalizing t with
  | nil =>
      cases hs : Numeral.scan? (Numeral.skipSeparators t) with
      | none =>
          rw [list_of_scan?_eq_none hs]
          exact ⟨rfl, lexes_skipSeparators.mpr h⟩
      | some p =>
          obtain ⟨ls', rfl, _⟩ := (lexes_numeral_iff hs).mp (lexes_skipSeparators.mpr h)
          exact absurd rfl (hls p.1)
  | cons n ns ih =>
      have h' := lexes_skipSeparators.mpr h
      cases hs : Numeral.scan? (Numeral.skipSeparators t) with
      | none =>
          cases hd : Numeral.skipSeparators t with
          | nil => rw [hd, lexes_nil_iff] at h'; cases h'
          | cons u t' =>
              rw [hd] at h' hs
              obtain ⟨_, e, _⟩ := (lexes_unit_iff (not_isSeparator_of_skipSeparators hd) hs).mp h'
              cases e
      | some p =>
          obtain ⟨ls', e, hl⟩ := (lexes_numeral_iff hs).mp h'
          obtain ⟨e₁, rfl⟩ := List.cons.inj e
          obtain rfl := PathLexeme.numeral.inj e₁
          rw [list_of_scan?_eq_some hs]
          obtain ⟨rfl, hl'⟩ := ih hl
          exact ⟨rfl, hl'⟩

end PathData

/-! ### Spellings -/

/-- A letter and the numerals after it. -/
structure PathSpelling where
  letter : CodeUnit
  numerals : List Numeral
deriving DecidableEq, Repr

namespace PathSpelling

def lexemes (s : PathSpelling) : List PathLexeme := .unit s.letter :: s.numerals.map .numeral

def values (s : PathSpelling) : List Float := s.numerals.map Numeral.value

/-- The letters of path data and the number counts that each allows. -/
def Admissible (s : PathSpelling) : Prop :=
  (s.letter ∈ [unit 'M', unit 'm', unit 'L', unit 'l'] ∧ 2 ∣ s.numerals.length) ∨
    s.letter ∈ [unit 'H', unit 'h', unit 'V', unit 'v'] ∨
    (s.letter ∈ [unit 'C', unit 'c'] ∧ 6 ∣ s.numerals.length) ∨
    (s.letter ∈ [unit 'S', unit 's'] ∧ 4 ∣ s.numerals.length) ∨
    (s.letter ∈ [unit 'Z', unit 'z'] ∧ s.numerals.length = 0)

/-- The command of a spelling. -/
def command? (s : PathSpelling) : Option PathCommand :=
  (Letter.ofUnit? s.letter).map fun l => .assemble l s.values

end PathSpelling

namespace Letter

theorem mem_all_of_ofUnit? {u : CodeUnit} {l : Letter} (h : ofUnit? u = some l) : (u, l) ∈ all := by
  obtain ⟨front, back, e, _⟩ := List.lookup_eq_some_iff.mp h
  rw [e]
  simp

/-- A letter is neither a separator nor the front of a numeral. -/
theorem lexes_of_ofUnit? {u : CodeUnit} {l : Letter} (h : ofUnit? u = some l) (t : Text) :
    ¬ Numeral.isSeparator u ∧ Numeral.scan? (u :: t) = none := by
  have hall : ∀ p ∈ all, ¬ Numeral.isSeparator p.1 ∧ p.1 ≠ unit '-' ∧ p.1 ≠ unit '.' ∧
      Digit.ofUnit? p.1 = none := by decide
  obtain ⟨hs, hminus, hpoint, hdigit⟩ := hall _ (mem_all_of_ofUnit? h)
  refine ⟨hs, ?_⟩
  simp [Numeral.scan?, Numeral.scanSign_of_ne hminus, Digit.scan_of_ofUnit?_eq_none hdigit,
    Numeral.scanFraction, hpoint, Numeral.WellFormed, Numeral.fractionDigits]

end Letter

/-- A spelling is admissible when its letter is known and its numbers make whole segments. -/
theorem PathSpelling.admissible_iff {s : PathSpelling} :
    s.Admissible ↔ ∃ l, Letter.ofUnit? s.letter = some l ∧ s.numerals.length % l.verb.arity = 0 := by
  obtain ⟨letter, numerals⟩ := s
  constructor
  · simp only [Admissible, List.mem_cons, List.not_mem_nil, or_false]
    rintro (⟨rfl | rfl | rfl | rfl, h⟩ | (rfl | rfl | rfl | rfl) | ⟨rfl | rfl, h⟩ | ⟨rfl | rfl, h⟩ |
      ⟨rfl | rfl, h⟩)
    all_goals exact ⟨_, rfl, by simp only [Verb.arity]; omega⟩
  · rintro ⟨l, hl, h⟩
    have table : ∀ p ∈ Letter.all,
        (p.1 ∈ [unit 'M', unit 'm', unit 'L', unit 'l'] ∧ p.2.verb.arity = 2) ∨
          p.1 ∈ [unit 'H', unit 'h', unit 'V', unit 'v'] ∨
          (p.1 ∈ [unit 'C', unit 'c'] ∧ p.2.verb.arity = 6) ∨
          (p.1 ∈ [unit 'S', unit 's'] ∧ p.2.verb.arity = 4) ∨
          (p.1 ∈ [unit 'Z', unit 'z'] ∧ p.2.verb.arity = 0) := by decide
    rcases table _ (Letter.mem_all_of_ofUnit? hl) with ⟨hm, ha⟩ | hm | ⟨hm, ha⟩ | ⟨hm, ha⟩ | ⟨hm, ha⟩
    · exact .inl ⟨hm, by rw [ha] at h; exact Nat.dvd_of_mod_eq_zero h⟩
    · exact .inr (.inl hm)
    · exact .inr (.inr (.inl ⟨hm, by rw [ha] at h; exact Nat.dvd_of_mod_eq_zero h⟩))
    · exact .inr (.inr (.inr (.inl ⟨hm, by rw [ha] at h; exact Nat.dvd_of_mod_eq_zero h⟩)))
    · rw [ha, Nat.mod_zero] at h
      exact .inr (.inr (.inr (.inr ⟨hm, h⟩)))

namespace PathData

/-- Path data that is a sequence of admissible spellings. -/
def Spells (d : Text) (spellings : List PathSpelling) : Prop :=
  Lexes d (spellings.flatMap PathSpelling.lexemes) ∧ ∀ s ∈ spellings, s.Admissible

/-! ### Parsing -/

theorem arityFault?_eq_none_iff {l : Letter} {count : Nat} {u : CodeUnit} {fragment : Text} :
    arityFault? l count u fragment = none ↔ count % l.verb.arity = 0 := by
  unfold arityFault?
  split
  · simp [*]
  · split <;> simp [*]

theorem head?_lexemes_ne_numeral (spellings : List PathSpelling) (n : Numeral) :
    (spellings.flatMap PathSpelling.lexemes).head? ≠ some (.numeral n) := by
  cases spellings <;> simp [PathSpelling.lexemes]

/-- The numbers after a letter are its operands, and parsing goes on behind them. -/
theorem operands_of_lexes {s : PathSpelling} {l : Letter} {t : Text} {spellings : List PathSpelling}
    (ha : s.numerals.length % l.verb.arity = 0)
    (h : Lexes t (s.numerals.map .numeral ++ spellings.flatMap PathSpelling.lexemes)) :
    (operands l t).1 = s.numerals ∧ Lexes (operands l t).2 (spellings.flatMap PathSpelling.lexemes) := by
  unfold operands
  split
  · next hc =>
    rw [hc, Verb.arity, Nat.mod_zero] at ha
    have hn := List.eq_nil_of_length_eq_zero ha
    rw [hn] at h ⊢
    exact ⟨rfl, h⟩
  · exact list_of_lexes h (head?_lexemes_ne_numeral spellings)

theorem parse_nil {d : Text} (h : Numeral.skipSeparators d = []) : parse d = ([], none) := by
  rw [parse]
  split <;> simp_all

theorem parse_cons {d t : Text} {u : CodeUnit} {l : Letter} (h : Numeral.skipSeparators d = u :: t)
    (hl : Letter.ofUnit? u = some l) (ha : (operands l t).1.length % l.verb.arity = 0) :
    parse d = (.assemble l ((operands l t).1.map Numeral.value) :: (parse (operands l t).2).1,
      (parse (operands l t).2).2) := by
  rw [parse]
  split
  · simp_all
  · next u' t' h' =>
    rw [h] at h'
    cases h'
    simp only [hl, arityFault?_eq_none_iff.mpr ha]

/-- Parsing gives the commands of the spellings. -/
theorem parse_of_spells {d : Text} {spellings : List PathSpelling} (h : Spells d spellings) :
    parse d = (spellings.filterMap PathSpelling.command?, none) := by
  induction spellings generalizing d with
  | nil =>
      apply parse_nil
      have hl := lexes_skipSeparators.mpr h.1
      cases hd : Numeral.skipSeparators d with
      | nil => rfl
      | cons u t =>
          rw [hd] at hl
          cases hs : Numeral.scan? (u :: t) with
          | some p =>
              obtain ⟨_, e, _⟩ := (lexes_numeral_iff hs).mp hl
              cases e
          | none =>
              obtain ⟨_, e, _⟩ := (lexes_unit_iff (not_isSeparator_of_skipSeparators hd) hs).mp hl
              cases e
  | cons s spellings ih =>
      obtain ⟨hl, hadm⟩ := h
      obtain ⟨l, hletter, harity⟩ := PathSpelling.admissible_iff.mp (hadm s (by simp))
      have hl' := lexes_skipSeparators.mpr hl
      cases hd : Numeral.skipSeparators d with
      | nil => rw [hd, lexes_nil_iff] at hl'; cases hl'
      | cons u t =>
          rw [hd] at hl'
          cases hs : Numeral.scan? (u :: t) with
          | some p =>
              obtain ⟨_, e, _⟩ := (lexes_numeral_iff hs).mp hl'
              cases e
          | none =>
              obtain ⟨_, e, ht⟩ := (lexes_unit_iff (not_isSeparator_of_skipSeparators hd) hs).mp hl'
              obtain ⟨e₁, rfl⟩ := List.cons.inj e
              obtain rfl := PathLexeme.unit.inj e₁
              obtain ⟨hops, hrest⟩ := operands_of_lexes harity ht
              rw [parse_cons hd hletter (by rw [hops]; exact harity), hops,
                ih ⟨hrest, fun s' hs' => hadm s' (List.mem_cons_of_mem s hs')⟩]
              simp [PathSpelling.command?, hletter, PathSpelling.values]

/-- Path data that parses is spelled by the grammar. -/
theorem spells_of_parse {d : Text} (h : (parse d).2 = none) : ∃ spellings, Spells d spellings := by
  fun_induction parse d with
  | case1 d hd =>
      refine ⟨[], ?_, by simp⟩
      rw [← lexes_skipSeparators, hd]
      exact .nil
  | case2 => cases h
  | case3 => cases h
  | case4 d u t hd l hl hf _ commands fault e ih =>
      rw [e] at ih
      obtain ⟨spellings, hlex, hadm⟩ := ih h
      obtain ⟨hu, hs⟩ := Letter.lexes_of_ofUnit? hl t
      have harity := arityFault?_eq_none_iff.mp hf
      refine ⟨⟨u, (operands l t).1⟩ :: spellings, ?_, ?_⟩
      · rw [← lexes_skipSeparators, hd]
        refine (lexes_unit_iff hu hs).mpr ⟨_, rfl, ?_⟩
        by_cases hc : l.verb = .close
        · rw [show operands l t = ([], t) from if_pos hc] at hlex ⊢
          exact hlex
        · rw [show operands l t = Numeral.list t from if_neg hc] at hlex ⊢
          exact lexes_list hlex
      · intro s hs'
        rcases List.mem_cons.mp hs' with rfl | hs'
        · exact PathSpelling.admissible_iff.mpr ⟨l, hl, harity⟩
        · exact hadm s hs'

end PathData
end Pictogram
