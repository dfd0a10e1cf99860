import Pictogram.Proofs.Path.Grammar

/-! # Plotting commands number by number

A plotter draws one segment at a time and keeps the pen, the start of the subpath and the control
point of the last curve.  It works on letters and their plain numbers: `Plotter.command` says for each
letter how the numbers are taken off and what is drawn.

* Every point of a relative command is offset by the pen before the command.
* Only the first point of a move opens a subpath; the others are lines.
* Horizontal and vertical lines keep the other coordinate of the pen.
* The smooth curves of one command share the reflection of the control point before the command.
* A close draws a line only when the pen is not at the start.

Path data that is spelled by the grammar draws what the plotter plots (`outline_eq_plot`). -/

namespace Pictogram

structure Plotter where
  outline : Outline
  pen : Point
  start : Point
  control : Point

namespace Plotter

def blank : Plotter := ⟨[], .origin, .origin, .origin⟩

def moveTo (p : Plotter) (target : Point) : Plotter :=
  { p with outline := p.outline ++ [.moveTo target], pen := target, start := target }

def lineTo (p : Plotter) (target : Point) : Plotter :=
  { p with outline := p.outline ++ [.lineTo target], pen := target }

def cubeTo (p : Plotter) (control₁ control₂ target : Point) : Plotter :=
  { p with outline := p.outline ++ [.cubeTo control₁ control₂ target], pen := target, control := control₂ }

/-- Makes the pen the control point. -/
def settle (p : Plotter) : Plotter := { p with control := p.pen }

/-! ### Runs of numbers -/

def lines (base : Point) : List Float → Plotter → Plotter
  | x :: y :: rest, p => lines base rest (p.lineTo (⟨x, y⟩ + base))
  | _, p => p

def moves (base : Point) : List Float → Plotter → Plotter
  | x :: y :: rest, p => lines base rest (p.moveTo (⟨x, y⟩ + base))
  | _, p => p

def horizontals (relativeTo : Option Float) : List Float → Plotter → Plotter
  | [], p => p
  | x :: rest, p =>
      horizontals relativeTo rest (p.lineTo ⟨(relativeTo.map (· + x)).getD x, p.pen.y⟩)

def verticals (relativeTo : Option Float) : List Float → Plotter → Plotter
  | [], p => p
  | y :: rest, p =>
      verticals relativeTo rest (p.lineTo ⟨p.pen.x, (relativeTo.map (· + y)).getD y⟩)

def curves (base : Point) : List Float → Plotter → Plotter
  | x₁ :: y₁ :: x₂ :: y₂ :: x :: y :: rest, p =>
      curves base rest (p.cubeTo (⟨x₁, y₁⟩ + base) (⟨x₂, y₂⟩ + base) (⟨x, y⟩ + base))
  | _, p => p

def smooths (control₁ base : Point) : List Float → Plotter → Plotter
  | x₂ :: y₂ :: x :: y :: rest, p =>
      smooths control₁ base rest (p.cubeTo control₁ (⟨x₂, y₂⟩ + base) (⟨x, y⟩ + base))
  | _, p => p

def close (p : Plotter) : Plotter :=
  let p := if p.pen.coincides p.start then p else p.lineTo p.start
  { p with control := p.start }

/-! ### Commands -/

/-- Plots one command.  Lower-case letters are relative to the pen. -/
def command (p : Plotter) (letter : CodeUnit) (numbers : List Float) : Plotter :=
  let relative : Bool := unit 'a' ≤ letter
  let base := if relative then p.pen else .origin
  if letter = unit 'M' ∨ letter = unit 'm' then (moves base numbers p).settle
  else if letter = unit 'L' ∨ letter = unit 'l' then (lines base numbers p).settle
  else if letter = unit 'H' ∨ letter = unit 'h' then
    (horizontals (if relative then some p.pen.x else none) numbers p).settle
  else if letter = unit 'V' ∨ letter = unit 'v' then
    (verticals (if relative then some p.pen.y else none) numbers p).settle
  else if letter = unit 'C' ∨ letter = unit 'c' then curves base numbers p
  else if letter = unit 'S' ∨ letter = unit 's' then smooths (p.pen.scale 2 - p.control) base numbers p
  else if letter = unit 'Z' ∨ letter = unit 'z' then p.close
  else p

/-- The outline of a list of letters with their numbers. -/
def plot (commands : List (CodeUnit × List Float)) : Outline :=
  (commands.foldl (fun p c => p.command c.1 c.2) blank).outline

/-! ### What the runs draw -/

/-- The plotter after an outline; the control point is given. -/
def after (p : Plotter) (o : Outline) (control : Point) : Plotter :=
  let pen := Pen.trace ⟨p.pen, p.start⟩ o
  ⟨p.outline ++ o, pen.point, pen.start, control⟩

@[simp] theorem after_nil (p : Plotter) : p.after [] p.control = p := by simp [after, Pen.trace]

theorem after_after (p : Plotter) (o o' : Outline) (c c' : Point) :
    (p.after o c).after o' c' = p.after (o ++ o') c' := by
  simp [after, Pen.trace, List.foldl_append]

theorem moveTo_eq (p : Plotter) (target : Point) : p.moveTo target = p.after [.moveTo target] p.control := rfl

theorem lineTo_eq (p : Plotter) (target : Point) : p.lineTo target = p.after [.lineTo target] p.control := rfl

theorem cubeTo_eq (p : Plotter) (control₁ control₂ target : Point) :
    p.cubeTo control₁ control₂ target = p.after [.cubeTo control₁ control₂ target] control₂ := rfl

@[simp] theorem control_after (p : Plotter) (o : Outline) (c : Point) : (p.after o c).control = c := rfl

theorem lines_eq (base : Point) (numbers : List Float) (p : Plotter) :
    lines base numbers p = p.after ((Point.pairs numbers).map fun q => .lineTo (q + base)) p.control := by
  fun_induction lines base numbers p with
  | case1 x y rest p ih =>
      rw [ih, lineTo_eq, after_after]
      rfl
  | case2 numbers p h => rw [Point.pairs.eq_2 _ h, List.map_nil, after_nil]

theorem moves_eq (base : Point) (numbers : List Float) (p : Plotter) :
    moves base numbers p =
      p.after (PathCommand.moveOutline ((Point.pairs numbers).map (· + base))) p.control := by
  match numbers with
  | [] => exact (after_nil p).symm
  | [_] => exact (after_nil p).symm
  | x :: y :: rest =>
      rw [moves, lines_eq, moveTo_eq, after_after]
      simp [Point.pairs, PathCommand.moveOutline, Function.comp_def]

theorem horizontals_eq (relativeTo : Option Float) (numbers : List Float) (p : Plotter) :
    horizontals relativeTo numbers p =
      p.after (numbers.map fun x => .lineTo ⟨(relativeTo.map (· + x)).getD x, p.pen.y⟩) p.control := by
  induction numbers generalizing p with
  | nil => exact (after_nil p).symm
  | cons x rest ih =>
      rw [horizontals, ih, lineTo_eq, after_after]
      rfl

theorem verticals_eq (relativeTo : Option Float) (numbers : List Float) (p : Plotter) :
    verticals relativeTo numbers p =
      p.after (numbers.map fun y => .lineTo ⟨p.pen.x, (relativeTo.map (· + y)).getD y⟩) p.control := by
  induction numbers generalizing p with
  | nil => exact (after_nil p).symm
  | cons y rest ih =>
      rw [verticals, ih, lineTo_eq, after_after]
      rfl

theorem triples_pairs_eq_nil {numbers : List Float}
    (h : ∀ x₁ y₁ x₂ y₂ x y rest, numbers = x₁ :: y₁ :: x₂ :: y₂ :: x :: y :: rest → False) :
    PathCommand.triples (Point.pairs numbers) = [] := by
  rcases numbers with _ | ⟨x₁, _ | ⟨y₁, _ | ⟨x₂, _ | ⟨y₂, _ | ⟨x, _ | ⟨y, rest⟩⟩⟩⟩⟩⟩
  case cons.cons.cons.cons.cons.cons => exact (h _ _ _ _ _ _ _ rfl).elim
  all_goals rfl

theorem couples_pairs_eq_nil {numbers : List Float}
    (h : ∀ x₂ y₂ x y rest, numbers = x₂ :: y₂ :: x :: y :: rest → False) :
    PathCommand.couples (Point.pairs numbers) = [] := by
  rcases numbers with _ | ⟨x₂, _ | ⟨y₂, _ | ⟨x, _ | ⟨y, rest⟩⟩⟩⟩
  case cons.cons.cons.cons => exact (h _ _ _ _ _ rfl).elim
  all_goals rfl

/-- Curves leave the second control point of the last of them, if there is one. -/
theorem curves_eq (base : Point) (numbers : List Float) (p : Plotter) :
    curves base numbers p =
      p.after ((PathCommand.triples (Point.pairs numbers)).map fun (q, r, s) =>
          .cubeTo (q + base) (r + base) (s + base))
        (((PathCommand.triples (Point.pairs numbers)).map fun (_, r, _) => r + base).getLast?.getD p.control) := by
  fun_induction curves base numbers p with
  | case1 x₁ y₁ x₂ y₂ x y rest p ih =>
      rw [ih, cubeTo_eq, after_after]
      simp [Point.pairs, PathCommand.triples, List.getLast?_cons]
  | case2 numbers p h =>
      rw [triples_pairs_eq_nil h]
      exact (after_nil p).symm

theorem smooths_eq (control₁ base : Point) (numbers : List Float) (p : Plotter) :
    smooths control₁ base numbers p =
      p.after ((PathCommand.couples (Point.pairs numbers)).map fun (r, s) =>
          .cubeTo control₁ (r + base) (s + base))
        (((PathCommand.couples (Point.pairs numbers)).map fun (r, _) => r + base).getLast?.getD p.control) := by
  fun_induction smooths control₁ base numbers p with
  | case1 x₂ y₂ x y rest p ih =>
      rw [ih, cubeTo_eq, after_after]
      simp [Point.pairs, PathCommand.couples, List.getLast?_cons]
  | case2 numbers p h =>
      rw [couples_pairs_eq_nil h]
      exact (after_nil p).symm

theorem close_eq (p : Plotter) : p.close = p.after (Pen.closing ⟨p.pen, p.start⟩) p.start := by
  unfold close Pen.closing
  split
  · simp [after, Pen.trace]
  · rfl

/-! ### The plotter and the tracer -/

/-- The state that a tracer keeps. -/
def tracer (p : Plotter) : Tracer := ⟨⟨p.pen, p.start⟩, p.control⟩

theorem settle_after (p : Plotter) (o : Outline) (c : Point) :
    (p.after o c).settle = p.after o (Pen.trace ⟨p.pen, p.start⟩ o).point := rfl

/-- The letters by what they do. -/
theorem command_of_letter {u : CodeUnit} {l : Letter} (h : Letter.ofUnit? u = some l) (numbers : List Float)
    (p : Plotter) :
    p.command u numbers = match l.verb with
      | .move => (moves (if l.relative then p.pen else .origin) numbers p).settle
      | .line => (lines (if l.relative then p.pen else .origin) numbers p).settle
      | .horizontal => (horizontals (if l.relative then some p.pen.x else none) numbers p).settle
      | .vertical => (verticals (if l.relative then some p.pen.y else none) numbers p).settle
      | .curve => curves (if l.relative then p.pen else .origin) numbers p
      | .smooth => smooths (p.pen.scale 2 - p.control) (if l.relative then p.pen else .origin) numbers p
      | .close => p.close := by
  have hm := Letter.mem_all_of_ofUnit? h
  simp only [Letter.all, List.mem_cons, List.not_mem_nil, or_false, Prod.mk.injEq] at hm
  rcases hm with ⟨rfl, rfl⟩ | ⟨rfl, rfl⟩ | ⟨rfl, rfl⟩ | ⟨rfl, rfl⟩ | ⟨rfl, rfl⟩ | ⟨rfl, rfl⟩ | ⟨rfl, rfl⟩ |
    ⟨rfl, rfl⟩ | ⟨rfl, rfl⟩ | ⟨rfl, rfl⟩ | ⟨rfl, rfl⟩ | ⟨rfl, rfl⟩ | ⟨rfl, rfl⟩ | ⟨rfl, rfl⟩
  all_goals rfl

/-- A command is plotted as it is drawn. -/
theorem command_eq {u : CodeUnit} {l : Letter} (h : Letter.ofUnit? u = some l) (numbers : List Float)
    (p : Plotter) :
    (p.command u numbers).outline = p.outline ++ ((PathCommand.assemble l numbers).draw p.tracer).1 ∧
      (p.command u numbers).tracer = ((PathCommand.assemble l numbers).draw p.tracer).2 := by
  rw [command_of_letter h]
  obtain ⟨verb, relative⟩ := l
  cases verb with
  | move =>
      simp only [moves_eq, settle_after]
      exact ⟨rfl, rfl⟩
  | line =>
      simp only [lines_eq, settle_after]
      exact ⟨rfl, rfl⟩
  | horizontal =>
      simp only [horizontals_eq, settle_after]
      cases relative <;> exact ⟨rfl, rfl⟩
  | vertical =>
      simp only [verticals_eq, settle_after]
      cases relative <;> exact ⟨rfl, rfl⟩
  | curve =>
      simp only [curves_eq]
      exact ⟨rfl, rfl⟩
  | smooth =>
      simp only [smooths_eq]
      exact ⟨rfl, rfl⟩
  | close =>
      simp only [close_eq]
      exact ⟨rfl, rfl⟩

/-- A list of commands is plotted as it is drawn. -/
theorem foldl_command_eq {spellings : List PathSpelling} (hs : ∀ s ∈ spellings, s.Admissible) (p : Plotter) :
    ((spellings.map fun s => (s.letter, s.values)).foldl (fun p c => p.command c.1 c.2) p).outline =
      p.outline ++ PathCommand.drawAll p.tracer (spellings.filterMap PathSpelling.command?) := by
  induction spellings generalizing p with
  | nil => simp [PathCommand.drawAll]
  | cons s spellings ih =>
      obtain ⟨l, hl, _⟩ := PathSpelling.admissible_iff.mp (hs s (by simp))
      obtain ⟨houtline, htracer⟩ := command_eq hl s.values p
      have hc : s.command? = some (.assemble l s.values) := by simp [PathSpelling.command?, hl]
      rw [List.map_cons, List.foldl_cons, ih (fun s' hs' => hs s' (List.mem_cons_of_mem s hs')), houtline, htracer,
        List.filterMap_cons_some hc, PathCommand.drawAll, List.append_assoc]

end Plotter

namespace PathData

open Plotter

/-- Path data that is spelled by the grammar draws what the plotter plots. -/
theorem outline_of_spells {d : Text} {spellings : List PathSpelling} (h : Spells d spellings) :
    outline d = .ok (plot (spellings.map fun s => (s.letter, s.values))) := by
  unfold outline trace
  rw [parse_of_spells h]
  refine congrArg Except.ok ?_
  unfold plot
  rw [foldl_command_eq h.2]
  rfl

/-- Path data without an outline has no spelling, and conversely. -/
theorem exists_spells_iff {d : Text} : (∃ o, outline d = .ok o) ↔ ∃ spellings, Spells d spellings := by
  constructor
  · rintro ⟨o, h⟩
    apply spells_of_parse
    unfold outline trace at h
    generalize parse d = p at h
    obtain ⟨commands, fault⟩ := p
    cases fault with
    | none => rfl
    | some f => cases h
  · rintro ⟨spellings, h⟩
    exact ⟨_, outline_of_spells h⟩

/-- **Path data has the meaning of its spelling.**  It falls into lexemes in one way; it has an outline
exactly when these are admissible spellings, namely the one that the plotter draws from their letters
and numbers; so path data with the same letters and numbers has the same outline. -/
theorem outline_eq_plot (d : Text) :
    (∃ ls, Lexes d ls ∧ ∀ ls', Lexes d ls' → ls' = ls) ∧
      ((∃ o, outline d = .ok o) ↔ ∃ spellings, Spells d spellings) ∧
      (∀ spellings, Spells d spellings → outline d = .ok (plot (spellings.map fun s => (s.letter, s.values)))) ∧
      (∀ d' spellings spellings', Spells d spellings → Spells d' spellings' →
        spellings.map (fun s => (s.letter, s.values)) = spellings'.map (fun s => (s.letter, s.values)) →
        outline d = outline d') := by
  refine ⟨existsUnique_lexes d, exists_spells_iff, fun spellings h => outline_of_spells h, ?_⟩
  intro d' spellings spellings' h h' e
  rw [outline_of_spells h, outline_of_spells h', e]

/-- A relative move with packed numbers, and a close. -/
def packedSpelling : List PathSpelling :=
  [⟨unit 'm', [⟨false, [1], none⟩, ⟨true, [2], some [5]⟩, ⟨false, [], some [5]⟩, ⟨false, [3], some []⟩]⟩,
    ⟨unit 'Z', []⟩]

theorem spells_packedSpelling : Spells (lit "m1-2.5.5,3.Z") packedSpelling := by
  refine ⟨?_, fun s hs => PathSpelling.admissible_iff.mpr ?_⟩
  · refine (lexes_unit_iff (by decide) (by decide)).mpr ⟨_, rfl, ?_⟩
    refine (lexes_numeral_iff (n := ⟨false, [1], none⟩) (t := lit "1-2.5.5,3.Z") rfl).mpr ⟨_, rfl, ?_⟩
    refine (lexes_numeral_iff (n := ⟨true, [2], some [5]⟩) (t := lit "-2.5.5,3.Z") rfl).mpr ⟨_, rfl, ?_⟩
    refine (lexes_numeral_iff (n := ⟨false, [], some [5]⟩) (t := lit ".5,3.Z") rfl).mpr ⟨_, rfl, ?_⟩
    refine .separator (by decide) ?_
    refine (lexes_numeral_iff (n := ⟨false, [3], some []⟩) (t := lit "3.Z") rfl).mpr ⟨_, rfl, ?_⟩
    exact (lexes_unit_iff (by decide) (by decide)).mpr ⟨_, rfl, .nil⟩
  · rcases List.mem_cons.mp hs with rfl | hs
    · exact ⟨_, rfl, rfl⟩
    · obtain rfl := List.mem_singleton.mp hs
      exact ⟨_, rfl, rfl⟩

theorem outline_packedSpelling :
    Spells (lit "m1-2.5.5,3.Z") packedSpelling ∧
      outline (lit "m1-2.5.5,3.Z") = .ok [.moveTo ⟨1, -2.5⟩, .lineTo ⟨0.5, 3⟩, .lineTo ⟨1, -2.5⟩] := by
  refine ⟨spells_packedSpelling, ?_⟩
  rw [(outline_eq_plot _).2.2.1 packedSpelling spells_packedSpelling]
  refine congrArg Except.ok ?_
  decide +kernel

end PathData
end Pictogram
