import Pictogram.Proofs.Path.RoundTrip
import Pictogram.Proofs.Plane.NumberLists

/-! # Cutting and joining path data

Numerals are as long as possible, so what is read of a text may depend on what follows it.  Two facts say when
it does not.

* A numeral does not go on into a text that begins with no digit and no point (`Numeral.scan?_append`), so path
  data can be joined in front of a separator or a letter (`PathData.parse_append`).
* What has been read of a text is read again when the text is cut off further behind (`Numeral.list_of_append`),
  so the path data in front of a faulty command gives the commands in front of it (`PathData.exists_of_parse_fault`).

A command that follows the join draws the same after either part if it does not look at the control point
(`PathCommand.drawAll_append_eq`). -/

namespace Pictogram

/-! ### Numerals -/

namespace Numeral

open PathData (Stops list_of_scan?_eq_none list_of_scan?_eq_some not_isSeparator_of_skipSeparators)

variable {n : Numeral} {a b r t x : Text}

/-- Behind its first unit, a numeral is written with digits and a point. -/
theorem of_mem_tail_text {u : CodeUnit} (h : u ∈ n.text.tail) :
    Digit.ofUnit? u ≠ none ∨ u = Pictogram.unit '.' := by
  have hdigit (ds : List Digit) (hu : u ∈ ds.map Digit.unit) : Digit.ofUnit? u ≠ none := by
    obtain ⟨d, -, rfl⟩ := List.mem_map.mp hu
    simp
  have hunsigned : u ∈ n.whole.map Digit.unit ++ fractionText n.fraction := by
    obtain ⟨negative, whole, fraction⟩ := n
    cases negative with
    | false => exact List.mem_of_mem_tail h
    | true => exact h
  rcases List.mem_append.mp hunsigned with hu | hu
  · exact .inl (hdigit _ hu)
  · cases hfraction : n.fraction with
    | none =>
        rw [hfraction] at hu
        cases hu
    | some ds =>
        rw [hfraction] at hu
        rcases List.mem_cons.mp hu with hu | hu
        · exact .inr hu
        · exact .inl (hdigit _ hu)

/-- A numeral that begins in front of a join ends there. -/
theorem exists_of_append_eq (hx : Stops x) (ht : t ≠ []) (h : t ++ x = n.text ++ r) :
    ∃ r', t = n.text ++ r' ∧ r = r' ++ x := by
  rcases List.append_eq_append_iff.mp h with ⟨back, htext, hback⟩ | h
  · cases back with
    | nil => exact ⟨[], by simpa using htext.symm, by simpa using hback.symm⟩
    | cons u back =>
        obtain ⟨hdigit, hpoint⟩ := hx u (by rw [hback]; rfl)
        have hmem : u ∈ n.text.tail := by
          rw [htext, List.tail_append_of_ne_nil ht]
          simp
        rcases of_mem_tail_text hmem with hu | hu
        · exact absurd hdigit hu
        · exact absurd hu hpoint
  · exact h

/-- Scanning is not disturbed by a text into which no numeral goes on. -/
theorem scan?_append (hx : Stops x) (ht : t ≠ []) : scan? (t ++ x) = (scan? t).map fun p => (p.1, p.2 ++ x) := by
  cases hs : scan? t with
  | none =>
      apply scan?_eq_none_iff.mpr
      intro m r hm h
      obtain ⟨r', hr', -⟩ := exists_of_append_eq hx ht h
      exact scan?_eq_none_iff.mp hs m r' hm hr'
  | some p =>
      obtain ⟨htext, hwf, hlongest⟩ := scan?_eq_some_iff.mp hs
      apply scan?_eq_some_iff.mpr
      refine ⟨by rw [htext, List.append_assoc], hwf, ?_⟩
      intro m r hm h
      rw [← List.append_assoc, ← htext] at h
      obtain ⟨r', hr', -⟩ := exists_of_append_eq hx ht h
      exact hlongest m r' hm (htext ▸ hr')

/-- A numeral that is the longest one is so in front of less. -/
theorem Longest.of_append (h : n.Longest (r ++ x)) : n.Longest r := by
  refine ⟨h.1, ?_⟩
  intro m r' hm heq
  apply h.2 m (r' ++ x) hm
  rw [← List.append_assoc, heq, List.append_assoc]

theorem scan?_of_append (h : scan? (t ++ x) = some (n, r ++ x)) : scan? t = some (n, r) := by
  obtain ⟨htext, hlongest⟩ := scan?_eq_some_iff.mp h
  rw [← List.append_assoc] at htext
  exact scan?_eq_some_iff.mpr ⟨List.append_cancel_right htext, hlongest.of_append⟩

theorem scan?_eq_none_of_append (h : scan? (t ++ x) = none) : scan? t = none := by
  rw [scan?_eq_none_iff] at h ⊢
  intro m r hm ht
  exact h m (r ++ x) hm (by rw [ht, List.append_assoc])

/-! ### Lists of numerals -/

theorem skipSeparators_append_of_nil (h : skipSeparators a = []) (x : Text) :
    skipSeparators (a ++ x) = skipSeparators x := by
  unfold skipSeparators at h ⊢
  rw [List.dropWhile_append, h]
  rfl

theorem skipSeparators_append_of_cons {u : CodeUnit} (h : skipSeparators a = u :: t) (x : Text) :
    skipSeparators (a ++ x) = u :: (t ++ x) := by
  unfold skipSeparators at h ⊢
  rw [List.dropWhile_append, h]
  rfl

theorem skipSeparators_of_append (h : skipSeparators (a ++ x) = b ++ x) : skipSeparators a = b := by
  cases ha : skipSeparators a with
  | nil =>
      rw [skipSeparators_append_of_nil ha] at h
      have hle := length_skipSeparators_le x
      rw [h, List.length_append] at hle
      exact (List.length_eq_zero_iff.mp (by omega)).symm
  | cons u t =>
      rw [skipSeparators_append_of_cons ha] at h
      exact List.append_cancel_right h

theorem skipSeparators_suffix (t : Text) : skipSeparators t <:+ t := List.dropWhile_suffix _

theorem exists_of_skipSeparators {u : CodeUnit} (h : skipSeparators a = u :: t) :
    ∃ front, a = front ++ u :: t ∧ skipSeparators front = [] := by
  obtain ⟨front, heq⟩ := skipSeparators_suffix a
  rw [h] at heq
  refine ⟨front, heq.symm, skipSeparators_of_append (x := u :: t) ?_⟩
  rw [heq, h]
  rfl

theorem suffix_of_scan? (h : scan? t = some (n, r)) : r <:+ t := ⟨n.text, (scan?_eq_append h).1.symm⟩

theorem list_suffix (t : Text) : (list t).2 <:+ t := by
  fun_induction list t with
  | case1 t _ => exact skipSeparators_suffix t
  | case2 t n rest hs _ ns rest' e ih =>
      rw [e] at ih
      exact (ih.trans (suffix_of_scan? hs)).trans (skipSeparators_suffix t)

/-- No numeral goes on into the text, and none begins behind its separators. -/
def Bars (x : Text) : Prop := Stops x ∧ scan? (skipSeparators x) = none

/-- Reading a list ends where the text is joined with one that bars it, or before. -/
theorem list_append (hx : Bars x) (a : Text) :
    list (a ++ x) = ((list a).1, skipSeparators ((list a).2 ++ x)) := by
  fun_induction list a with
  | case1 a hs =>
      cases ha : skipSeparators a with
      | nil =>
          have hskip := skipSeparators_append_of_nil ha x
          rw [list_of_scan?_eq_none (by rw [hskip]; exact hx.2), hskip]
          rfl
      | cons u t =>
          have hskip := skipSeparators_append_of_cons ha x
          rw [ha] at hs
          have hnone : scan? (skipSeparators (a ++ x)) = none := by
            rw [hskip, ← List.cons_append, scan?_append hx.1 (List.cons_ne_nil u t), hs]
            rfl
          have hu := not_isSeparator_of_skipSeparators ha
          rw [list_of_scan?_eq_none hnone, hskip, List.cons_append]
          exact congrArg _ (List.dropWhile_cons_of_neg hu).symm
  | case2 a n rest hs _ ns rest' e ih =>
      rw [e] at ih
      have hne : skipSeparators a ≠ [] := by
        intro hnil
        rw [hnil] at hs
        cases hs
      obtain ⟨u, t, ha⟩ := List.exists_cons_of_ne_nil hne
      have hsome : scan? (skipSeparators (a ++ x)) = some (n, rest ++ x) := by
        rw [skipSeparators_append_of_cons ha, ← List.cons_append, ← ha, scan?_append hx.1 hne, hs]
        rfl
      rw [list_of_scan?_eq_some hsome, ih]

/-- What is read of a list is read again when the text is cut off behind it. -/
theorem list_of_append (h : (list (a ++ x)).2 = b ++ x) : list a = ((list (a ++ x)).1, b) := by
  generalize ht : a ++ x = t at h
  fun_induction list t generalizing a with
  | case1 t hs =>
      rw [← ht] at h hs
      change skipSeparators (a ++ x) = b ++ x at h
      have hskip := skipSeparators_of_append h
      rw [h] at hs
      rw [list_of_scan?_eq_none (by rw [hskip]; exact scan?_eq_none_of_append hs), hskip]
  | case2 t n rest hs _ ns rest' e ih =>
      rw [e] at ih
      have hback : b ++ x <:+ rest := by
        rw [← h, ← congrArg Prod.snd e]
        exact list_suffix rest
      obtain ⟨front, hfront⟩ := hback
      rw [← List.append_assoc] at hfront
      rw [← hfront] at hs
      obtain ⟨htext, -⟩ := scan?_eq_append hs
      rw [← ht, ← List.append_assoc] at htext
      have hskip := skipSeparators_of_append htext
      have hscan : scan? (skipSeparators a) = some (n, front ++ b) := by
        rw [hskip]
        rw [← ht, htext] at hs
        exact scan?_of_append hs
      rw [list_of_scan?_eq_some hscan, ih hfront h]

end Numeral

namespace PathData

variable {a b d x : Text} {l : Letter}

/-! ### Operands -/

theorem operands_suffix (l : Letter) (t : Text) : (operands l t).2 <:+ t := by
  unfold operands
  split
  · exact List.suffix_rfl
  · exact Numeral.list_suffix t

theorem operands_append (hx : Numeral.Bars x) (l : Letter) (t : Text) :
    (operands l (t ++ x)).1 = (operands l t).1 ∧
      Numeral.skipSeparators (operands l (t ++ x)).2 = Numeral.skipSeparators ((operands l t).2 ++ x) := by
  unfold operands
  split
  · exact ⟨rfl, rfl⟩
  · have hskip := Numeral.skipSeparators_list (t ++ x)
    rw [Numeral.list_append hx] at hskip ⊢
    exact ⟨rfl, hskip⟩

theorem operands_of_append (h : (operands l (a ++ x)).2 = b ++ x) : operands l a = ((operands l (a ++ x)).1, b) := by
  unfold operands at h ⊢
  split at h
  · next hclose =>
    rw [if_pos hclose, if_pos hclose, List.append_cancel_right h]
  · next hclose =>
    rw [if_neg hclose, if_neg hclose]
    exact Numeral.list_of_append h

/-! ### Commands -/

theorem skipSeparators_of_letter {u : CodeUnit} (h : Numeral.skipSeparators a = []) (hl : Letter.ofUnit? u = some l)
    (t : Text) : Numeral.skipSeparators (a ++ u :: t) = u :: t := by
  rw [Numeral.skipSeparators_append_of_nil h]
  exact List.dropWhile_cons_of_neg (Letter.lexes_of_ofUnit? hl t).1

theorem parse_of_unknown {t : Text} {u : CodeUnit} (h : Numeral.skipSeparators d = u :: t)
    (hl : Letter.ofUnit? u = none) : parse d = ([], some (.unknownCommand u (u :: t))) := by
  rw [parse]
  split
  · simp_all
  · next h' =>
    rw [h] at h'
    cases h'
    simp only [hl]

theorem parse_of_arityFault {t : Text} {u : CodeUnit} {f : Fault} (h : Numeral.skipSeparators d = u :: t)
    (hl : Letter.ofUnit? u = some l) (hf : arityFault? l (operands l t).1.length u (u :: t) = some f) :
    parse d = ([], some f) := by
  rw [parse]
  split
  · simp_all
  · next h' =>
    rw [h] at h'
    cases h'
    simp only [hl, hf]

/-- Separators in front of path data do not matter. -/
theorem parse_congr {d' : Text} (h : Numeral.skipSeparators d = Numeral.skipSeparators d') : parse d = parse d' := by
  cases hd : Numeral.skipSeparators d' with
  | nil => rw [parse_nil hd, parse_nil (h.trans hd)]
  | cons u t =>
      cases hl : Letter.ofUnit? u with
      | none => rw [parse_of_unknown hd hl, parse_of_unknown (h.trans hd) hl]
      | some l =>
          cases hf : arityFault? l (operands l t).1.length u (u :: t) with
          | some f => rw [parse_of_arityFault hd hl hf, parse_of_arityFault (h.trans hd) hl hf]
          | none =>
              have harity := arityFault?_eq_none_iff.mp hf
              rw [parse_cons hd hl harity, parse_cons (h.trans hd) hl harity]

/-- Path data without a fault gives its commands, and then those of what is joined to it. -/
theorem parse_append (h : (parse d).2 = none) (hx : Numeral.Bars x) :
    parse (d ++ x) = ((parse d).1 ++ (parse x).1, (parse x).2) := by
  fun_induction parse d with
  | case1 d hd => exact parse_congr (Numeral.skipSeparators_append_of_nil hd x)
  | case2 => cases h
  | case3 => cases h
  | case4 d u t hd l hl hf _ commands fault e ih =>
      rw [e] at ih
      obtain ⟨hops, hrest⟩ := operands_append hx l t
      have harity : (operands l (t ++ x)).1.length % l.verb.arity = 0 := by
        rw [hops]
        exact arityFault?_eq_none_iff.mp hf
      rw [parse_cons (Numeral.skipSeparators_append_of_cons hd x) hl harity, hops, parse_congr hrest, ih h]
      rfl

/-! ### Faults -/

/-- The fault of the command that begins with the unit `u`, in front of `rest`: the unit is no letter, or the
numerals behind the letter do not make whole segments. -/
inductive Offends (u : CodeUnit) (rest : Text) : Fault → Prop
  | unknown : Letter.ofUnit? u = none → Offends u rest (.unknownCommand u (u :: rest))
  | odd {l : Letter} {ns : List Numeral} : Letter.ofUnit? u = some l → l.verb ≠ .close → Numeral.Begins rest ns →
      ¬ l.verb.arity ∣ ns.length → ns.length % 2 = 1 → Offends u rest (.oddCoordinates (u :: rest))
  | incomplete {l : Letter} {ns : List Numeral} : Letter.ofUnit? u = some l → l.verb ≠ .close →
      Numeral.Begins rest ns → ¬ l.verb.arity ∣ ns.length → ns.length % 2 = 0 →
      Offends u rest (.incompleteSegment u (u :: rest))

theorem Offends.fragment?_eq {u : CodeUnit} {rest : Text} {f : Fault} (h : Offends u rest f) :
    f.fragment? = some (u :: rest) := by
  cases h <;> rfl

theorem offends_of_arityFault {u : CodeUnit} {t : Text} {f : Fault} (hl : Letter.ofUnit? u = some l)
    (hf : arityFault? l (operands l t).1.length u (u :: t) = some f) : Offends u t f := by
  have harity : ¬ (operands l t).1.length % l.verb.arity = 0 := by
    intro hzero
    rw [arityFault?_eq_none_iff.mpr hzero] at hf
    cases hf
  have hclose : l.verb ≠ .close := by
    intro hclose
    rw [operands, if_pos hclose] at harity
    exact harity (Nat.zero_mod _)
  rw [operands, if_neg hclose] at harity hf
  have hbegins : Numeral.Begins t (Numeral.list t).1 := Numeral.begins_iff.mpr rfl
  have hdvd := mt Nat.mod_eq_zero_of_dvd harity
  rw [arityFault?, if_neg harity] at hf
  split at hf
  · next heven =>
    cases hf
    exact .incomplete hl hclose hbegins hdvd heven
  · next hodd =>
    cases hf
    exact .odd hl hclose hbegins hdvd (by omega)

/-- Path data with a fault is path data without one, up to the command at fault; both give the same commands. -/
theorem exists_of_parse_fault {f : Fault} (h : (parse d).2 = some f) :
    ∃ front u rest, d = front ++ u :: rest ∧ Offends u rest f ∧ parse front = ((parse d).1, none) := by
  fun_induction parse d with
  | case1 => cases h
  | case2 d u t hd hl =>
      cases h
      obtain ⟨front, heq, hskip⟩ := Numeral.exists_of_skipSeparators hd
      exact ⟨front, u, t, heq, .unknown hl, parse_nil hskip⟩
  | case3 d u t hd l hl f' hf =>
      cases h
      obtain ⟨front, heq, hskip⟩ := Numeral.exists_of_skipSeparators hd
      exact ⟨front, u, t, heq, offends_of_arityFault hl hf, parse_nil hskip⟩
  | case4 d u t hd l hl hf _ commands fault e ih =>
      rw [e] at ih
      obtain ⟨front, v, rest, hrest, hoffends, hparse⟩ := ih h
      obtain ⟨before, heq, hskip⟩ := Numeral.exists_of_skipSeparators hd
      obtain ⟨inside, hinside⟩ := operands_suffix l t
      rw [hrest, ← List.append_assoc] at hinside
      refine ⟨before ++ u :: (inside ++ front), v, rest, ?_, hoffends, ?_⟩
      · rw [heq, ← hinside]
        simp
      · have hops : operands l (inside ++ front) = ((operands l t).1, front) := by
          rw [← hinside] at hrest ⊢
          exact operands_of_append hrest
        have harity : (operands l (inside ++ front)).1.length % l.verb.arity = 0 := by
          rw [hops]
          exact arityFault?_eq_none_iff.mp hf
        rw [parse_cons (skipSeparators_of_letter hskip hl _) hl harity, hops, hparse]

end PathData

/-! ### Drawing -/

namespace PathCommand

variable {s s' : Tracer} {cs cs' : List PathCommand}

/-- The tracer after a list of commands. -/
def tracerAfter (s : Tracer) (cs : List PathCommand) : Tracer := cs.foldl (fun s c => (c.draw s).2) s

theorem drawAll_append (s : Tracer) (cs cs' : List PathCommand) :
    drawAll s (cs ++ cs') = drawAll s cs ++ drawAll (tracerAfter s cs) cs' := by
  induction cs generalizing s with
  | nil => rfl
  | cons c cs ih =>
      rw [List.cons_append, drawAll, drawAll, ih, List.append_assoc]
      rfl

/-- The pen of a tracer follows what is drawn. -/
theorem pen_draw (c : PathCommand) (s : Tracer) : (c.draw s).2.pen = s.pen.trace (c.draw s).1 := by
  cases c <;> rfl

theorem pen_tracerAfter (s : Tracer) (cs : List PathCommand) :
    (tracerAfter s cs).pen = s.pen.trace (drawAll s cs) := by
  induction cs generalizing s with
  | nil => rfl
  | cons c cs ih =>
      show (tracerAfter (c.draw s).2 cs).pen = _
      rw [ih, pen_draw, drawAll, Pen.trace, Pen.trace, Pen.trace, List.foldl_append]

/-- Curves look at the control point left by the command before, or leave it as it is. -/
def isCurve : PathCommand → Bool
  | curve .. | smooth .. => true
  | _ => false

/-- All other commands go by the pen alone. -/
theorem draw_congr {c : PathCommand} (hc : c.isCurve = false) (h : s.pen = s'.pen) : c.draw s = c.draw s' := by
  cases c with
  | curve | smooth => cases hc
  | _ => simp only [draw, Tracer.base, Tracer.restart, h]

theorem drawAll_congr (hcs : ∀ c ∈ cs.head?, c.isCurve = false) (h : s.pen = s'.pen) :
    drawAll s cs = drawAll s' cs := by
  cases cs with
  | nil => rfl
  | cons c cs => rw [drawAll, drawAll, draw_congr (hcs c rfl) h]

/-- Commands that do not begin with a curve draw the same if the pen is taken up anew in front of them. -/
theorem drawAll_append_eq (s : Tracer) (cs : List PathCommand) (hcs' : ∀ c ∈ cs'.head?, c.isCurve = false) :
    drawAll s (cs ++ cs') = drawAll s cs ++ drawAll (.ofPen (s.pen.trace (drawAll s cs))) cs' := by
  have hpen : (tracerAfter s cs).pen = (Tracer.ofPen (s.pen.trace (drawAll s cs))).pen := pen_tracerAfter s cs
  rw [drawAll_append, drawAll_congr hcs' hpen]

end PathCommand

namespace PathData

/-! ### Path data that can be joined -/

/-- Path data that holds only separators, or whose first command is no curve. -/
def BeginsAnew (d : Text) : Prop :=
  ∃ front back, d = front ++ back ∧ (∀ u ∈ front, Numeral.isSeparator u) ∧
    ∀ u ∈ back.head?, u ∈ lit "MmLlHhVvZz"

theorem letter_of_mem {u : CodeUnit} (h : u ∈ lit "MmLlHhVvZz") :
    ∃ l, Letter.ofUnit? u = some l ∧ ∀ values, (PathCommand.assemble l values).isCurve = false := by
  have hunits : lit "MmLlHhVvZz" = [unit 'M', unit 'm', unit 'L', unit 'l', unit 'H', unit 'h', unit 'V', unit 'v',
    unit 'Z', unit 'z'] := by decide
  rw [hunits] at h
  simp only [List.mem_cons, List.not_mem_nil, or_false] at h
  rcases h with rfl | rfl | rfl | rfl | rfl | rfl | rfl | rfl | rfl | rfl
  all_goals exact ⟨_, rfl, fun _ => rfl⟩

theorem BeginsAnew.cases {d : Text} (h : BeginsAnew d) :
    (∃ l u t, Numeral.skipSeparators d = u :: t ∧ Letter.ofUnit? u = some l ∧
      ∀ values, (PathCommand.assemble l values).isCurve = false) ∨ Numeral.skipSeparators d = [] := by
  obtain ⟨front, back, rfl, hfront, hback⟩ := h
  have hskip : Numeral.skipSeparators front = [] := by
    unfold Numeral.skipSeparators
    simpa using hfront
  cases back with
  | nil =>
      rw [List.append_nil]
      exact .inr hskip
  | cons u t =>
      obtain ⟨l, hl, hcurve⟩ := letter_of_mem (hback u rfl)
      exact .inl ⟨l, u, t, skipSeparators_of_letter hskip hl t, hl, hcurve⟩

theorem stops_of_isSeparator {u : CodeUnit} (h : Numeral.isSeparator u = true) (t : Text) : Stops (u :: t) :=
  stops_cons (Numeral.ofUnit?_of_isSeparator h) t

theorem stops_of_letter {u : CodeUnit} {l : Letter} (h : Letter.ofUnit? u = some l) (t : Text) : Stops (u :: t) := by
  have hall : ∀ p ∈ Letter.all, Digit.ofUnit? p.1 = none ∧ p.1 ≠ unit '.' := by decide
  exact stops_cons (hall _ (Letter.mem_all_of_ofUnit? h)) t

theorem BeginsAnew.bars {d : Text} (h : BeginsAnew d) : Numeral.Bars d := by
  have hscan : Numeral.scan? (Numeral.skipSeparators d) = none := by
    rcases h.cases with ⟨l, u, t, hd, hl, -⟩ | hd
    · rw [hd]
      exact (Letter.lexes_of_ofUnit? hl t).2
    · rw [hd]
      rfl
  refine ⟨?_, hscan⟩
  obtain ⟨front, back, rfl, hfront, hback⟩ := h
  cases front with
  | cons u front => exact stops_of_isSeparator (hfront u List.mem_cons_self) _
  | nil =>
      cases back with
      | nil => simp [Stops]
      | cons u t =>
          obtain ⟨l, hl, -⟩ := letter_of_mem (hback u rfl)
          exact stops_of_letter hl t

/-- The first command is none that looks at the control point. -/
theorem BeginsAnew.head_parse {d : Text} (h : BeginsAnew d) : ∀ c ∈ (parse d).1.head?, c.isCurve = false := by
  rcases h.cases with ⟨l, u, t, hd, hl, hcurve⟩ | hd
  · cases hf : arityFault? l (operands l t).1.length u (u :: t) with
    | some f =>
        rw [parse_of_arityFault hd hl hf]
        simp
    | none =>
        rw [parse_cons hd hl (arityFault?_eq_none_iff.mp hf)]
        rintro c ⟨⟩
        exact hcurve _
  · rw [parse_nil hd]
    simp

end PathData
end Pictogram
