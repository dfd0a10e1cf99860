import Pictogram.Proofs.Path.Splitting
import Pictogram.Sketch

/-! # Path data on a sketch

A step of path data draws the commands up to the first fault.  Path data may be handed over in two steps instead
of one if the second part begins with no curve (`perform_path_append`).  A step that fails has drawn what the path
data in front of the faulty command draws, and nothing of that command (`perform_path_fault`). -/

namespace Pictogram.Sketch

variable {s : Sketch} {d x : Text}

theorem extend_append (s : Sketch) (o o' : Outline) : s.extend (o ++ o') = (s.extend o).extend o' := by
  simp [extend, Pen.trace]

/-- Path data on a sketch that is not finished draws its commands. -/
theorem perform_path (hs : s.finished = false) (d : Text) :
    s.perform (.path d) =
      (s.extend (PathCommand.drawAll (.ofPen s.pen) (PathData.parse d).1), (PathData.parse d).2.map .fault) := by
  simp [perform, SketchStep.outline, PathData.trace, extend, hs]

theorem perform_path_eq_none_iff (hs : s.finished = false) :
    (s.perform (.path d)).2 = none ↔ (PathData.parse d).2 = none := by
  rw [perform_path hs]
  exact Option.map_eq_none_iff

theorem perform_path_eq_some_iff (hs : s.finished = false) {e : SketchError} :
    (s.perform (.path d)).2 = some e ↔ ∃ f, (PathData.parse d).2 = some f ∧ .fault f = e := by
  rw [perform_path hs]
  exact Option.map_eq_some_iff

/-- **Path data can be handed over in parts.**  On a sketch that is not finished, path data without a fault and
what is joined to it draw the same in one step as in two, if what is joined holds only separators or begins with
a letter of no curve.  The sketch is the same afterwards, and so is the fault, if there is one; it is a path
fault. -/
theorem perform_path_append (hs : s.finished = false) (hd : (s.perform (.path d)).2 = none)
    (hx : PathData.BeginsAnew x) :
    s.perform (.path (d ++ x)) = (s.perform (.path d)).1.perform (.path x) ∧
      ∀ e, (s.perform (.path (d ++ x))).2 = some e → ∃ f, e = .fault f ∧ f.kind = .path := by
  refine ⟨?_, ?_⟩
  · have hparse := PathData.parse_append ((perform_path_eq_none_iff hs).mp hd) hx.bars
    have hafter : (s.perform (.path d)).1.finished = false := by
      rw [perform_path hs]
      exact hs
    rw [perform_path hafter, perform_path hs, perform_path hs, hparse,
      PathCommand.drawAll_append_eq _ _ hx.head_parse, extend_append]
    rfl
  · intro e he
    obtain ⟨f, hf, rfl⟩ := (perform_path_eq_some_iff hs).mp he
    exact ⟨f, rfl, PathData.kind_of_parse hf⟩

/-- A sketch with an open subpath. -/
def opened : Sketch := empty.extend [.moveTo ⟨1, 1⟩]

/-- The parts meet behind a curve and a number that ends in a point; the second part has a fault. -/
theorem perform_path_append_opened :
    PathData.BeginsAnew (lit "l.5.5s1 1 2 2q") ∧
      opened.perform (.path (lit "c1 1 2 2 3-3." ++ lit "l.5.5s1 1 2 2q")) =
        (opened.perform (.path (lit "c1 1 2 2 3-3."))).1.perform (.path (lit "l.5.5s1 1 2 2q")) := by
  have hanew : PathData.BeginsAnew (lit "l.5.5s1 1 2 2q") := by
    refine ⟨[], lit "l.5.5s1 1 2 2q", rfl, by simp, ?_⟩
    intro u hu
    obtain rfl : unit 'l' = u := Option.some.inj hu
    decide
  exact ⟨hanew, (perform_path_append rfl (by decide +kernel) hanew).1⟩

/-- **A path fault is atomic, and its fragment is exact.**  If path data fails on a sketch that is not finished,
then it is a front part followed by the fragment of the fault.  The fragment begins with the unit of the command
that offends.  The front part does not fail, and leaves the sketch that the whole path data leaves. -/
theorem perform_path_fault (hs : s.finished = false) {e : SketchError} (h : (s.perform (.path d)).2 = some e) :
    ∃ f front u rest, e = .fault f ∧ f.kind = .path ∧ f.fragment? = some (u :: rest) ∧ PathData.Offends u rest f ∧
      d = front ++ u :: rest ∧ s.perform (.path front) = ((s.perform (.path d)).1, none) := by
  obtain ⟨f, hf, rfl⟩ := (perform_path_eq_some_iff hs).mp h
  obtain ⟨front, u, rest, hd, hoffends, hparse⟩ := PathData.exists_of_parse_fault hf
  refine ⟨f, front, u, rest, rfl, PathData.kind_of_parse hf, hoffends.fragment?_eq, hoffends, hd, ?_⟩
  rw [perform_path hs, perform_path hs, hparse]
  rfl

/-- The command at fault stands behind packed numbers; a good command follows it. -/
theorem perform_path_fault_opened :
    (opened.perform (.path (lit "l1.-2.5.5 3. ,C.5.5 1Z"))).2 = some (.fault (.oddCoordinates (lit "C.5.5 1Z"))) ∧
      ∃ front, lit "l1.-2.5.5 3. ,C.5.5 1Z" = front ++ lit "C.5.5 1Z" ∧
        opened.perform (.path front) = ((opened.perform (.path (lit "l1.-2.5.5 3. ,C.5.5 1Z"))).1, none) := by
  have hfault : (opened.perform (.path (lit "l1.-2.5.5 3. ,C.5.5 1Z"))).2 =
      some (.fault (.oddCoordinates (lit "C.5.5 1Z"))) := by decide +kernel
  obtain ⟨f, front, u, rest, he, -, hfragment, -, hd, hfront⟩ := perform_path_fault rfl hfault
  obtain rfl := SketchError.fault.inj he
  rw [← Option.some.inj hfragment] at hd
  exact ⟨hfault, front, hd, hfront⟩

end Pictogram.Sketch
