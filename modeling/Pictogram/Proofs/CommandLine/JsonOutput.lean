import Pictogram.Proofs.CommandLine.Outcome
import Pictogram.Proofs.Json.Reading

/-! # JSON output

A run that prints JSON prints the compiled files as one array (`CommandLine.out_runFiles_of_json`), which is
read back as such.  That is all it prints unless the batch has a closing line
(`CommandLine.PrintsSummary`): the line goes to the same stream, and since nothing but blanks may follow a
value (`CommandLine.read?_line_append`), what is printed is then no JSON text. -/

namespace Pictogram

/-! ### Batches -/

/-- The files that cannot be read or have no picture, in order. -/
def failingOf (d : Disk) (files : List Text) : List Text := files.filter fun file => (FileResult.ofFile d file).isFailed

namespace Batch

theorem length_failed_ofFiles {d : Disk} {keepGoing : Bool} {files : List Text}
    (h : AllCompile d files ∨ keepGoing = true) :
    (ofFiles d keepGoing files).failed.length = (failingOf d files).length := by
  rw [failed, ofFiles, resultsOf_eq_map h, failingOf, List.length_filterMap_eq_countP, List.countP_map,
    List.countP_eq_length_filter]
  congr 2
  funext file
  rw [Function.comp_apply]
  cases FileResult.ofFile d file <;> rfl

end Batch

namespace CommandLine
variable {d : Disk} {o : Options} {files : List Text}

/-! ### What is printed -/

/-- A batch of several files that keeps going has a closing line, unless it is quiet. -/
def PrintsSummary (o : Options) (files : List Text) : Prop := o.quiet = false ∧ 1 < files.length ∧ o.keepGoing = true

instance (o : Options) (files : List Text) : Decidable (PrintsSummary o files) := inferInstanceAs (Decidable (_ ∧ _))

/-- The closing line, which has an empty line before it. -/
def summaryLine (d : Disk) (files : List Text) : Text :=
  unit '\n' :: lit "Done: " ++ Text.ofNat (compiledOf d files).length ++ lit " compiled, " ++
    Text.ofNat (failingOf d files).length ++ lit " failed"

theorem summary_ofFiles (h : AllCompile d files ∨ o.keepGoing = true) :
    summary o files (Batch.ofFiles d o.keepGoing files) =
      if PrintsSummary o files then [summaryLine d files] else [] := by
  simp only [summary, PrintsSummary, Batch.compiled_ofFiles h, Batch.length_failed_ofFiles h, summaryLine,
    Bool.and_eq_true, Bool.not_eq_true', decide_eq_true_eq, and_assoc]
  exact if_congr Iff.rfl rfl rfl

theorem reportLines_of_not_verbose (h : o.verbose = false) (cs : List CompiledFile) : reportLines o cs = [] := by
  simp [reportLines, report, h]

/-- Files that are compiled to JSON print their array and the closing line. -/
theorem out_runFiles_of_json (hjson : o.json = true) (hinfo : o.info = false) (hverbose : o.verbose = false)
    (h : AllCompile d files ∨ o.keepGoing = true) :
    (runFiles d o files).out =
      line (CompiledFile.jsonText (compiledOf d files)) ++
        if PrintsSummary o files then line (summaryLine d files) else [] := by
  have hgo : (Batch.ofFiles d o.keepGoing files).producesOutput o.keepGoing = true := Batch.producesOutput_iff.mpr h
  simp only [runFiles, hgo, if_true, produce, hinfo, hjson, Bool.false_eq_true, if_false, flatMap_report,
    reportLines_of_not_verbose hverbose, Batch.compiled_ofFiles h, summary_ofFiles h]
  split <;> simp [lines]

/-! ### What is read -/

/-- The value that the JSON text of compiled files stands for. -/
def jsonValue (cs : List CompiledFile) : Json.Value := .array (cs.map fun c => c.json.value)

theorem value_array_map_json (cs : List CompiledFile) :
    (Json.array (cs.map CompiledFile.json)).value = jsonValue cs := by
  rw [Json.value, Json.itemValues_eq_map, List.map_map]
  rfl

theorem read?_line_append (cs : List CompiledFile) (t : Text) :
    Json.read? (line (CompiledFile.jsonText cs) ++ t) = if t.all Json.isBlank then some (jsonValue cs) else none := by
  have hapart : Script.Apart (unit '\n' :: t) := ⟨unit '\n', t, rfl, by decide⟩
  have hblank : (unit '\n' :: t).all Json.isBlank = t.all Json.isBlank := by
    rw [List.all_cons, show Json.isBlank (unit '\n') = true by decide, Bool.true_and]
  rw [line, List.append_assoc, CompiledFile.jsonText, List.singleton_append, Json.read?_render_append _ _ hapart,
    hblank, value_array_map_json]

theorem all_isBlank_summaryLine (d : Disk) (files : List Text) :
    (line (summaryLine d files)).all Json.isBlank = false := by
  have hdone : (lit "Done: ").all Json.isBlank = false := by decide
  simp [line, summaryLine, List.all_append, hdone]

/-- **JSON mode prints the compiled files as one JSON value, and behind it the closing line of the batch.**
Once the run gets to its output, the JSON text and a line feed are printed, whatever the other options are
and whichever files failed.  That alone is read as the array of the compiled files.  Exactly for a batch of
several files that keeps going and is not quiet, the closing line follows, and then what is printed is no
JSON text. -/
theorem run_json {d : Disk} {arguments : List Text} {a : Arguments} {files : List Text}
    (ha : Arguments.read arguments = .ok a) (hjson : a.options.json = true) (hinfo : a.options.info = false)
    (hverbose : a.options.verbose = false) (h : ReachesOutput d a files) :
    let printed := (run d arguments).out
    let json := line (CompiledFile.jsonText (compiledOf d files))
    Json.read? json = some (jsonValue (compiledOf d files)) ∧
      (¬ PrintsSummary a.options files → printed = json) ∧
      (PrintsSummary a.options files → printed = json ++ line (summaryLine d files) ∧ Json.read? printed = none) := by
  intro printed json
  have hprinted : printed = json ++ if PrintsSummary a.options files then line (summaryLine d files) else [] := by
    rcases run_of_not_endsEarly (d := d) ha h.not_endsEarly with ⟨e, herror, -⟩ | ⟨files', hfiles', hrun⟩
    · have hselects := h.selects
      rw [← filesOfAll_eq_ok_iff, herror] at hselects
      cases hselects
    · obtain rfl : files = files' := h.selects.unique hfiles'
      exact (congrArg Effect.out hrun).trans (out_runFiles_of_json hjson hinfo hverbose h.goesOn)
  refine ⟨?_, ?_, ?_⟩
  · have hread := read?_line_append (compiledOf d files) []
    rw [List.append_nil] at hread
    exact hread
  · intro hsummary
    rw [hprinted, if_neg hsummary, List.append_nil]
  · intro hsummary
    rw [if_pos hsummary] at hprinted
    refine ⟨hprinted, ?_⟩
    rw [hprinted, read?_line_append, all_isBlank_summaryLine, if_neg Bool.false_ne_true]

/-- A picture without shapes in `a.svg`, and nothing in `b.svg`. -/
def emptyPictureDisk : Disk :=
  let work : Path := [lit "work"]
  let picture := lit "<svg xmlns=\"http://www.w3.org/2000/svg\"/>"
  ((Disk.ofFolder work).addFile (work ++ [lit "a.svg"]) picture.encodeUtf8).addFile (work ++ [lit "b.svg"]) []

/-- A quiet run that keeps going past an empty file prints JSON and nothing else. -/
theorem run_json_quiet :
    let d := emptyPictureDisk
    let files := [lit "/work/a.svg", lit "/work/b.svg"]
    let arguments := [lit "a.svg", lit "b.svg", lit "-k", lit "--json", lit "--quiet"]
    let printed := (run d arguments).out
    compiledOf d files = [⟨lit "/work/a.svg", lit "Image_a", ⟨none, []⟩⟩] ∧
      printed = line (CompiledFile.jsonText (compiledOf d files)) ∧
      Json.read? printed = some (jsonValue (compiledOf d files)) := by
  intro d files arguments printed
  have ha : Arguments.read arguments =
      .ok ⟨[lit "a.svg", lit "b.svg"], { Options.unset with json := true, keepGoing := true, quiet := true }⟩ := rfl
  have hselects : Selects d [lit "a.svg", lit "b.svg"] files := filesOfAll_eq_ok_iff.mp rfl
  obtain ⟨hread, hprinted, -⟩ := run_json ha rfl rfl rfl ⟨rfl, rfl, by simp, hselects, .inr rfl⟩
  have hjson := hprinted (by decide)
  exact ⟨by decide +kernel, hjson, (congrArg Json.read? hjson).trans hread⟩

/-- The same run prints more than JSON if it is not quiet. -/
theorem run_json_keepGoing_closing :
    let d := emptyPictureDisk
    let files := [lit "/work/a.svg", lit "/work/b.svg"]
    let arguments := [lit "a.svg", lit "b.svg", lit "-k", lit "--json"]
    (∃ a, Arguments.read arguments = .ok a ∧ a.options.json = true ∧ a.options.info = false ∧
      a.options.verbose = false ∧ ReachesOutput d a files) ∧
      (run d arguments).out ≠ line (CompiledFile.jsonText (compiledOf d files)) ∧
      Json.read? (run d arguments).out = none := by
  intro d files arguments
  have hselects : Selects d [lit "a.svg", lit "b.svg"] files := filesOfAll_eq_ok_iff.mp rfl
  refine ⟨⟨_, rfl, rfl, rfl, rfl, rfl, rfl, by simp, hselects, .inr rfl⟩, by decide +kernel, ?_⟩
  exact Option.isNone_iff_eq_none.mp (by decide +kernel)

end CommandLine
end Pictogram
