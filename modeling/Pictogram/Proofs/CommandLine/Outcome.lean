import Pictogram.CommandLine.Run
import Pictogram.Proofs.Disk.Writing
import Pictogram.Proofs.Script.Names

/-! # What a run leaves behind

A run ends at the help or the version, fails on its arguments or inputs, stops at a file that does not
compile, or gets to its output (`CommandLine.ReachesOutput`).  Only there can it change the disk, and
only by writing its module: it needs distinct image names and a place that can be opened
(`CommandLine.CanProduce`), and all is checked before the file is touched.

`CommandLine.frame_run` puts together which files differ after a run, when the module is written and
with what content, and which exit code the run has. -/

namespace Pictogram

/-! ### Batches -/

/-- All of the files can be read and have a picture. -/
def AllCompile (d : Disk) (files : List Text) : Prop := ∀ file ∈ files, (FileResult.ofFile d file).isFailed = false

/-- The files that can be read and have a picture, in order. -/
def compiledOf (d : Disk) (files : List Text) : List CompiledFile :=
  files.filterMap fun file => (FileResult.ofFile d file).compiled?

theorem name_of_mem_compiledOf {d : Disk} {files : List Text} {c : CompiledFile} (h : c ∈ compiledOf d files) :
    c.name = ImageName.ofFile c.file := by
  obtain ⟨file, -, hc⟩ := List.mem_filterMap.mp h
  unfold FileResult.ofFile at hc
  split at hc
  · cases hc
  · split at hc
    · cases hc
    · cases hc
      rfl

theorem FileResult.failed?_eq_none_iff {r : FileResult} : r.failed? = none ↔ r.isFailed = false := by
  cases r <;> simp [failed?, isFailed]

namespace Batch
variable {d : Disk} {keepGoing : Bool} {files : List Text}

theorem resultsOf_eq_map (h : AllCompile d files ∨ keepGoing = true) :
    resultsOf d keepGoing files = files.map (FileResult.ofFile d) := by
  induction files with
  | nil => rfl
  | cons file files ih =>
      have hgo : ((FileResult.ofFile d file).isFailed && !keepGoing) = false := by
        rcases h with h | h
        · rw [h file List.mem_cons_self, Bool.false_and]
        · rw [h, Bool.not_true, Bool.and_false]
      have hrest : AllCompile d files ∨ keepGoing = true := h.imp_left fun h f hf => h f (List.mem_cons_of_mem _ hf)
      simp [resultsOf, hgo, ih hrest]

theorem compiled_ofFiles (h : AllCompile d files ∨ keepGoing = true) :
    (ofFiles d keepGoing files).compiled = compiledOf d files := by
  simp only [compiled, ofFiles, resultsOf_eq_map h, compiledOf, List.filterMap_map]
  rfl

/-- A failure is kept among the results, also of a batch that stops there. -/
theorem failed_ofFiles_eq_nil_iff : (ofFiles d keepGoing files).failed = [] ↔ AllCompile d files := by
  simp only [failed, ofFiles, List.filterMap_eq_nil_iff, FileResult.failed?_eq_none_iff]
  constructor
  · intro h
    induction files with
    | nil => simp [AllCompile]
    | cons file files ih =>
        unfold resultsOf at h
        have hfile : (FileResult.ofFile d file).isFailed = false := by
          apply h
          dsimp only
          split <;> simp
        simp only [hfile, Bool.false_and, Bool.false_eq_true, if_false] at h
        intro f hf
        rcases List.mem_cons.mp hf with rfl | hf
        · exact hfile
        · exact ih (fun r hr => h r (List.mem_cons_of_mem _ hr)) f hf
  · intro h r hr
    rw [resultsOf_eq_map (.inl h)] at hr
    obtain ⟨file, hfile, rfl⟩ := List.mem_map.mp hr
    exact h file hfile

theorem producesOutput_iff :
    (ofFiles d keepGoing files).producesOutput keepGoing = true ↔ AllCompile d files ∨ keepGoing = true := by
  rw [producesOutput, Bool.or_eq_true, List.isEmpty_iff, failed_ofFiles_eq_nil_iff]

end Batch

/-! ### The module -/

/-- Making the folder of a file and opening the file succeed. -/
def Opens (d : Disk) (out : Text) : Prop :=
  (CompiledFile.prepareFolder d out).2 = none ∧ ∃ p, (CompiledFile.prepareFolder d out).1.fileToWrite out = .ok p

namespace CompiledFile
variable {d : Disk} {out : Text} {hostModule : Option Text} {cs : List CompiledFile}

theorem addsFolders_prepareFolder (d : Disk) (out : Text) : d.AddsFolders (prepareFolder d out).1 := by
  unfold prepareFolder
  split
  · exact .refl d
  · exact d.addsFolders_makeFolder _

/-- A file at a path of plain names opens if no place on the way is a file and it is no folder itself. -/
theorem opens_text_iff {p : Path} (hp : p.IsProper) : Opens d p.text ↔ d.CanWrite p := by
  rcases List.eq_nil_or_concat p with rfl | ⟨q, name, rfl⟩
  · have hopens : ¬ Opens d (Path.text []) := by
      rintro ⟨-, p, hp'⟩
      obtain ⟨rfl, -, hfolder⟩ := (Disk.fileToWrite_text_iff hp).mp hp'
      exact hfolder (Disk.get?_nil _)
    have hwrite : ¬ d.CanWrite [] := fun h => h.1 (Disk.get?_nil d)
    exact iff_of_false hopens hwrite
  · rw [List.concat_eq_append] at hp ⊢
    obtain ⟨hq, hname⟩ := Path.isProper_append.mp hp
    have hparent := Path.parentText_text hq (hname name List.mem_cons_self)
    unfold Opens prepareFolder
    rw [hparent, Disk.canWrite_concat]
    split
    · rename_i hhas
      obtain ⟨hleads, hsome⟩ := (Disk.has_text_iff hq).mp hhas
      simp only [true_and, Disk.fileToWrite_text_iff hp, exists_eq_left, Disk.leads_concat]
      constructor
      · rintro ⟨hfolders, hfile⟩
        refine ⟨hfile, ?_⟩
        intro front hfront content
        simp [hfolders front hfront]
      · rintro ⟨hfile, hfree⟩
        refine ⟨?_, hfile⟩
        intro front hfront
        by_cases hne : front = q
        · subst hne
          cases hget : d.get? front with
          | none => simp [hget] at hsome
          | some e =>
              cases e with
              | folder => rfl
              | file content => exact absurd hget (hfree front hfront content)
        · exact hleads front hfront hne
    · rw [Disk.makeFolder_text_eq_none_iff hq]
      constructor
      · rintro ⟨hfree, p, hopen⟩
        rw [Disk.fileToWrite_makeFolder hp ((Disk.makeFolder_text_eq_none_iff hq).mpr hfree)] at hopen
        exact ⟨hopen.2, hfree⟩
      · rintro ⟨hfolder, hfree⟩
        refine ⟨hfree, q ++ [name], ?_⟩
        rw [Disk.fileToWrite_makeFolder hp ((Disk.makeFolder_text_eq_none_iff hq).mpr hfree)]
        exact ⟨rfl, hfolder⟩

/-- A module is written, as one file, if it has a text and the file opens. -/
theorem writeModule_of_opens {source : Text} (hout : Path.isAbsolute out = true)
    (hsource : Script.write hostModule (cs.map image) = .ok source) (hopens : Opens d out) :
    ∃ d₁, d.AddsFolders d₁ ∧ Path.follow [] out ≠ [] ∧
      writeModule d out hostModule cs = (d₁.insert (Path.follow [] out) (.file source.encodeUtf8), none) := by
  obtain ⟨hnone, p, hopen⟩ := hopens
  obtain ⟨rfl, hfile⟩ := Disk.eq_of_fileToWrite hout hopen
  refine ⟨(prepareFolder d out).1, addsFolders_prepareFolder d out, ?_, ?_⟩
  · intro hroot
    rw [hroot] at hfile
    exact hfile (Disk.get?_nil _)
  · cases hprepare : prepareFolder d out with
    | mk d₁ fault =>
        rw [hprepare] at hnone hopen
        obtain rfl : fault = none := hnone
        simp only [writeModule, hsource, hprepare, Disk.writeFile, hopen]

/-- A module that is not written leaves all files as they are. -/
theorem writeModule_of_not
    (h : ¬ ((∃ source, Script.write hostModule (cs.map image) = .ok source) ∧ Opens d out)) :
    ∃ d₁ e, d.AddsFolders d₁ ∧ writeModule d out hostModule cs = (d₁, some e) := by
  unfold writeModule
  cases hsource : Script.write hostModule (cs.map image) with
  | error e => exact ⟨d, .name e, .refl d, rfl⟩
  | ok source =>
      have hadds := addsFolders_prepareFolder d out
      cases hprepare : prepareFolder d out with
      | mk d₁ fault =>
          rw [hprepare] at hadds
          cases fault with
          | some e => exact ⟨d₁, .disk e, hadds, rfl⟩
          | none =>
              cases hopen : d₁.fileToWrite out with
              | error f =>
                  simp only [Disk.writeFile, hopen]
                  exact ⟨d₁, .disk ⟨f, "open", some out⟩, hadds, rfl⟩
              | ok p =>
                  refine absurd ⟨⟨source, hsource⟩, ?_⟩ h
                  unfold Opens
                  rw [hprepare]
                  exact ⟨rfl, p, hopen⟩

/-- Images named after files have a module if their names differ. -/
theorem exists_write_iff (hnames : ∀ c ∈ cs, c.name = ImageName.ofFile c.file) :
    (∃ source, Script.write hostModule (cs.map image) = .ok source) ↔ (cs.map CompiledFile.name).Nodup := by
  have hmap : (cs.map image).map Image.name = cs.map CompiledFile.name := by
    rw [List.map_map]
    rfl
  have hvalid : ∀ n ∈ cs.map CompiledFile.name, ImageName.isValid n = true := by
    intro n hn
    obtain ⟨c, hc, rfl⟩ := List.mem_map.mp hn
    rw [hnames c hc]
    exact ImageName.isValid_ofFile c.file
  simp only [Script.write_eq_ok_iff, exists_and_left, exists_eq, and_true, hmap, Script.Accepted]
  exact and_iff_right hvalid

end CompiledFile

namespace CommandLine
variable {d : Disk} {o : Options} {inputs files : List Text}

/-! ### Inputs -/

/-- Every input stands for some files, and `files` are all of them in order. -/
def Selects (d : Disk) (inputs files : List Text) : Prop :=
  ∃ groups, List.Forall₂ (fun input group => d.expand (lit ".") input = .ok group ∧ group ≠ []) inputs groups ∧
    files = groups.flatten

theorem filesOf_eq_ok_iff {input : Text} :
    filesOf d input = .ok files ↔ d.expand (lit ".") input = .ok files ∧ files ≠ [] := by
  unfold filesOf
  cases hexpand : d.expand (lit ".") input with
  | error e => simp
  | ok group =>
      cases group with
      | nil =>
          simp only [reduceCtorEq, Except.ok.injEq, false_iff, not_and, not_not]
          exact fun h => h.symm
      | cons file group =>
          simp only [Except.ok.injEq, iff_self_and]
          rintro rfl
          exact List.cons_ne_nil file group

theorem filesOfAll_eq_ok_iff : filesOfAll d inputs = .ok files ↔ Selects d inputs files := by
  induction inputs generalizing files with
  | nil =>
      constructor
      · intro h
        cases h
        exact ⟨[], .nil, rfl⟩
      · rintro ⟨groups, hgroups, rfl⟩
        cases hgroups
        rfl
  | cons input inputs ih =>
      unfold filesOfAll
      constructor
      · intro h
        cases hinput : filesOf d input with
        | error e =>
            rw [hinput] at h
            cases h
        | ok group =>
            cases hothers : filesOfAll d inputs with
            | error e =>
                rw [hinput, hothers] at h
                cases h
            | ok others =>
                rw [hinput, hothers] at h
                cases h
                obtain ⟨groups, hgroups, rfl⟩ := ih.mp hothers
                exact ⟨group :: groups, .cons (filesOf_eq_ok_iff.mp hinput) hgroups, rfl⟩
      · rintro ⟨groups, hgroups, rfl⟩
        cases hgroups with
        | cons hgroup hgroups =>
            rw [filesOf_eq_ok_iff.mpr hgroup, ih.mpr ⟨_, hgroups, rfl⟩]
            rfl

/-! ### Output -/

/-- Nothing stands in the way of the module: its images have different names, and its file opens. -/
structure CanProduce (d : Disk) (o : Options) (files : List Text) : Prop where
  distinct : ((compiledOf d files).map CompiledFile.name).Nodup
  opens : Opens d (outputPath d o)

/-- The place of the output module. -/
def outputPlace (d : Disk) (o : Options) : Path := Path.follow [] (outputPath d o)

theorem outputPlace_eq (h : d.working.IsProper) : outputPlace d o = d.working.follow (o.out.getD defaultOutput) :=
  Path.follow_text (h.follow _) []

/-- Lines that report on files as they are compiled. -/
def reportLines (o : Options) (cs : List CompiledFile) : List Text := cs.flatMap fun c => (report o (.compiled c)).out

theorem flatMap_report (b : Batch) :
    (b.results.flatMap fun r => (report o r).out) = reportLines o b.compiled := by
  unfold reportLines Batch.compiled
  induction b.results with
  | nil => rfl
  | cons r results ih =>
      cases r with
      | compiled c => simp [FileResult.compiled?, ih]
      | failed file error =>
          rw [List.flatMap_cons, List.filterMap_cons_none rfl, ← ih]
          rfl

theorem canProduce_iff :
    CanProduce d o files ↔
      (∃ source, Script.write o.hostModule ((compiledOf d files).map CompiledFile.image) = .ok source) ∧
        Opens d (outputPath d o) := by
  rw [CompiledFile.exists_write_iff fun c hc => name_of_mem_compiledOf hc]
  exact ⟨fun h => ⟨h.distinct, h.opens⟩, fun h => ⟨h.1, h.2⟩⟩

/-! ### Files that are compiled -/

theorem runFiles_of_stop (h : ¬ (AllCompile d files ∨ o.keepGoing = true)) :
    runFiles d o files =
      { exit := 1, out := lines (reportLines o (Batch.ofFiles d o.keepGoing files).compiled)
        err := (runFiles d o files).err, disk := d } := by
  have hstop : (Batch.ofFiles d o.keepGoing files).producesOutput o.keepGoing = false := by
    rw [← Bool.not_eq_true, Batch.producesOutput_iff]
    exact h
  simp only [runFiles, hstop, Bool.false_eq_true, if_false, flatMap_report]

/-- What is produced decides the effect of files that are compiled. -/
theorem runFiles_of_produce {printed : List Text} {d₁ : Disk} {fault : Option CompiledFile.WriteError}
    (h : AllCompile d files ∨ o.keepGoing = true)
    (hproduce : produce d o (compiledOf d files) = (printed, d₁, fault)) :
    (runFiles d o files).disk = d₁ ∧ ((runFiles d o files).exit = 0 ↔ fault = none ∧ AllCompile d files) ∧
      ((runFiles d o files).exit = 0 ∨ (runFiles d o files).exit = 1) ∧
      (fault ≠ none → (runFiles d o files).out = lines (reportLines o (compiledOf d files) ++ printed)) := by
  have hgo : (Batch.ofFiles d o.keepGoing files).producesOutput o.keepGoing = true := Batch.producesOutput_iff.mpr h
  have hfailed : (Batch.ofFiles d o.keepGoing files).failed.isEmpty = true ↔ AllCompile d files := by
    rw [List.isEmpty_iff, Batch.failed_ofFiles_eq_nil_iff]
  simp only [runFiles, hgo, if_true, Batch.compiled_ofFiles h, hproduce, flatMap_report]
  cases fault with
  | some e => simp
  | none =>
      by_cases hall : (Batch.ofFiles d o.keepGoing files).failed.isEmpty = true
      · simp [hall, hfailed.mp hall]
      · simp [hall, mt hfailed.mpr hall]

theorem produce_of_listed (h : o.info = true ∨ o.json = true) (cs : List CompiledFile) :
    ∃ printed, produce d o cs = (printed, d, none) := by
  unfold produce
  by_cases hinfo : o.info = true
  · rw [if_pos hinfo]
    exact ⟨_, rfl⟩
  · rw [if_neg hinfo, if_pos (h.resolve_left hinfo)]
    exact ⟨_, rfl⟩

theorem produce_of_canProduce (hinfo : o.info = false) (hjson : o.json = false) (h : CanProduce d o files) :
    ∃ d₁ source printed, d.AddsFolders d₁ ∧ outputPlace d o ≠ [] ∧
      Script.write o.hostModule ((compiledOf d files).map CompiledFile.image) = .ok source ∧
      produce d o (compiledOf d files) =
        (printed, d₁.insert (outputPlace d o) (.file source.encodeUtf8), none) := by
  have habsolute : Path.isAbsolute (outputPath d o) = true := Path.isAbsolute_text _
  obtain ⟨⟨source, hsource⟩, hopens⟩ := canProduce_iff.mp h
  obtain ⟨d₁, hadds, hne, hwrite⟩ := CompiledFile.writeModule_of_opens habsolute hsource hopens
  unfold produce
  simp only [hinfo, hjson, Bool.false_eq_true, if_false, hwrite]
  exact ⟨d₁, source, _, hadds, hne, hsource, rfl⟩

theorem produce_of_not (hinfo : o.info = false) (hjson : o.json = false) (h : ¬ CanProduce d o files) :
    ∃ d₁ e, d.AddsFolders d₁ ∧ produce d o (compiledOf d files) = ([], d₁, some e) := by
  obtain ⟨d₁, e, hadds, hwrite⟩ := CompiledFile.writeModule_of_not (mt canProduce_iff.mpr h)
  refine ⟨d₁, e, hadds, ?_⟩
  unfold produce
  simp only [hinfo, hjson, Bool.false_eq_true, if_false, hwrite]

/-! ### Runs -/

/-- The run gets as far as its output, with these files. -/
structure ReachesOutput (d : Disk) (a : Arguments) (files : List Text) : Prop where
  help : a.options.help = false
  version : a.options.version = false
  inputs : a.inputs ≠ []
  selects : Selects d a.inputs files
  goesOn : AllCompile d files ∨ a.options.keepGoing = true

/-- The output of the run is a module, and it is written. -/
structure WritesModule (d : Disk) (a : Arguments) (files : List Text) : Prop extends
    ReachesOutput d a files, CanProduce d a.options files where
  info : a.options.info = false
  json : a.options.json = false

/-- The run ends at the help or the version. -/
def EndsEarly (a : Arguments) : Prop := a.options.help = true ∨ a.options.version = true ∨ a.inputs = []

/-- Nothing is printed but the lines on the files that the run compiles, and nothing at all if the inputs select no
files. -/
def PrintsReports (d : Disk) (a : Arguments) (out : Text) : Prop :=
  (¬ ∃ files, Selects d a.inputs files) ∧ out = [] ∨
    ∃ files, Selects d a.inputs files ∧
      out = lines (reportLines a.options (Batch.ofFiles d a.options.keepGoing files).compiled)

/-- The ways in which a run with arguments that can be read ends. -/
inductive Ending (d : Disk) (a : Arguments) (e : Effect) : Prop where
  | early (ends : EndsEarly a) (exit : e.exit = 0) (disk : e.disk = d)
  | stopped (unended : ¬ EndsEarly a)
      (stops : ∀ files, Selects d a.inputs files → ¬ (AllCompile d files ∨ a.options.keepGoing = true))
      (exit : e.exit = 1) (disk : e.disk = d) (out : PrintsReports d a e.out)
  | listed {files : List Text} (reaches : ReachesOutput d a files)
      (lists : a.options.info = true ∨ a.options.json = true)
      (exit : e.exit = 0 ∨ e.exit = 1) (exit_iff : e.exit = 0 ↔ AllCompile d files) (disk : e.disk = d)
  | written {files : List Text} {source : Text} {d₁ : Disk} (writes : WritesModule d a files)
      (exit : e.exit = 0 ∨ e.exit = 1) (exit_iff : e.exit = 0 ↔ AllCompile d files)
      (text : Script.write a.options.hostModule ((compiledOf d files).map CompiledFile.image) = .ok source)
      (adds : d.AddsFolders d₁) (place : outputPlace d a.options ≠ [])
      (disk : e.disk = d₁.insert (outputPlace d a.options) (.file source.encodeUtf8))
  | refused {files : List Text} (reaches : ReachesOutput d a files) (info : a.options.info = false)
      (json : a.options.json = false) (refuses : ¬ CanProduce d a.options files) (exit : e.exit = 1)
      (adds : d.AddsFolders e.disk) (out : PrintsReports d a e.out)

section runs
variable {arguments : List Text} {a : Arguments}

theorem run_of_endsEarly (ha : Arguments.read arguments = .ok a) (h : EndsEarly a) :
    (run d arguments).exit = 0 ∧ (run d arguments).disk = d := by
  obtain ⟨inputs, o⟩ := a
  simp only [EndsEarly] at h
  unfold run
  rw [ha]
  dsimp only
  split
  · exact ⟨rfl, rfl⟩
  · rename_i hhelp
    split
    · exact ⟨rfl, rfl⟩
    · rename_i hversion
      rcases h with h | h | h
      · simp [h] at hhelp
      · exact absurd h hversion
      · simp [h, hversion] at hhelp

theorem run_of_not_endsEarly (ha : Arguments.read arguments = .ok a) (h : ¬ EndsEarly a) :
    (∃ e, filesOfAll d a.inputs = .error e ∧ run d arguments = ⟨1, [], line e.message, d⟩) ∨
      ∃ files, Selects d a.inputs files ∧ run d arguments = runFiles d a.options files := by
  obtain ⟨inputs, o⟩ := a
  simp only [EndsEarly, not_or, Bool.not_eq_true] at h
  obtain ⟨hhelp, hversion, hinputs⟩ := h
  cases hfiles : filesOfAll d inputs with
  | error e => exact .inl ⟨e, rfl, by simp [run, ha, hhelp, hversion, hinputs, hfiles]⟩
  | ok files =>
      refine .inr ⟨files, filesOfAll_eq_ok_iff.mp hfiles, ?_⟩
      simp [run, ha, hhelp, hversion, hinputs, hfiles]

theorem Selects.unique {files' : List Text} (h : Selects d inputs files) (h' : Selects d inputs files') :
    files = files' := by
  rw [← filesOfAll_eq_ok_iff] at h h'
  exact Except.ok.inj (h.symm.trans h')

theorem ReachesOutput.not_endsEarly (h : ReachesOutput d a files) : ¬ EndsEarly a := by
  simp [EndsEarly, h.help, h.version, h.inputs]

theorem ending_runFiles (h : ReachesOutput d a files) : Ending d a (runFiles d a.options files) := by
  by_cases hlists : a.options.info = true ∨ a.options.json = true
  · obtain ⟨printed, hproduce⟩ := produce_of_listed (d := d) hlists (compiledOf d files)
    obtain ⟨hdisk, hzero, hexit, -⟩ := runFiles_of_produce h.goesOn hproduce
    exact .listed h hlists hexit (by simpa using hzero) hdisk
  · simp only [not_or, Bool.not_eq_true] at hlists
    obtain ⟨hinfo, hjson⟩ := hlists
    by_cases hcan : CanProduce d a.options files
    · obtain ⟨d₁, source, printed, hadds, hplace, htext, hproduce⟩ := produce_of_canProduce hinfo hjson hcan
      obtain ⟨hdisk, hzero, hexit, -⟩ := runFiles_of_produce h.goesOn hproduce
      exact .written ⟨h, hcan, hinfo, hjson⟩ hexit (by simpa using hzero) htext hadds hplace hdisk
    · obtain ⟨d₁, e, hadds, hproduce⟩ := produce_of_not hinfo hjson hcan
      obtain ⟨hdisk, hzero, hexit, hout⟩ := runFiles_of_produce h.goesOn hproduce
      have hone : (runFiles d a.options files).exit = 1 := hexit.resolve_left (by simp [hzero])
      rw [← hdisk] at hadds
      have hprinted : (runFiles d a.options files).out = lines (reportLines a.options (compiledOf d files)) := by
        simpa using hout
      rw [← Batch.compiled_ofFiles h.goesOn] at hprinted
      exact .refused h hinfo hjson hcan hone hadds (.inr ⟨files, h.selects, hprinted⟩)

/-- Every run with arguments that can be read ends in one of the ways. -/
theorem ending_run (ha : Arguments.read arguments = .ok a) : Ending d a (run d arguments) := by
  by_cases hends : EndsEarly a
  · obtain ⟨hexit, hdisk⟩ := run_of_endsEarly (d := d) ha hends
    exact .early hends hexit hdisk
  · rcases run_of_not_endsEarly (d := d) ha hends with ⟨e, herror, hrun⟩ | ⟨files, hfiles, hrun⟩
    · rw [hrun]
      have hnone : ∀ files, ¬ Selects d a.inputs files := by
        intro files hfiles
        rw [← filesOfAll_eq_ok_iff, herror] at hfiles
        cases hfiles
      refine .stopped hends (fun files hfiles => absurd hfiles (hnone files)) rfl rfl (.inl ⟨?_, rfl⟩)
      rintro ⟨files, hfiles⟩
      exact hnone files hfiles
    · rw [hrun]
      by_cases hgo : AllCompile d files ∨ a.options.keepGoing = true
      · have hends' := hends
        simp only [EndsEarly, not_or, Bool.not_eq_true] at hends'
        exact ending_runFiles ⟨hends'.1, hends'.2.1, hends'.2.2, hfiles, hgo⟩
      · rw [runFiles_of_stop hgo]
        refine .stopped hends ?_ rfl rfl (.inr ⟨files, hfiles, rfl⟩)
        intro files' hfiles'
        rw [← hfiles.unique hfiles']
        exact hgo

/-! ### What follows from the way a run ends -/

namespace Ending
variable {e : Effect}

/-- Which file is written, and that no other one is. -/
theorem disk_cases (h : Ending d a e) :
    ((¬ ∃ files, WritesModule d a files) ∧ d.AddsFolders e.disk) ∨
      ∃ files source d₁, WritesModule d a files ∧
        Script.write a.options.hostModule ((compiledOf d files).map CompiledFile.image) = .ok source ∧
        d.AddsFolders d₁ ∧ outputPlace d a.options ≠ [] ∧
        e.disk = d₁.insert (outputPlace d a.options) (.file source.encodeUtf8) := by
  cases h with
  | early ends exit disk =>
      refine .inl ⟨?_, disk ▸ .refl d⟩
      rintro ⟨files, hfiles⟩
      exact hfiles.toReachesOutput.not_endsEarly ends
  | stopped unended stops exit disk out =>
      refine .inl ⟨?_, disk ▸ .refl d⟩
      rintro ⟨files, hfiles⟩
      exact stops files hfiles.selects hfiles.goesOn
  | listed reaches lists exit exit_iff disk =>
      refine .inl ⟨?_, disk ▸ .refl d⟩
      rintro ⟨files, hfiles⟩
      simp [hfiles.info, hfiles.json] at lists
  | written writes exit exit_iff text adds place disk => exact .inr ⟨_, _, _, writes, text, adds, place, disk⟩
  | refused reaches info json refuses exit adds out =>
      refine .inl ⟨?_, adds⟩
      rintro ⟨files, hfiles⟩
      rw [reaches.selects.unique hfiles.selects] at refuses
      exact refuses hfiles.toCanProduce

theorem exit_cases (h : Ending d a e) : e.exit = 0 ∨ e.exit = 1 := by
  cases h with
  | early ends exit disk => exact .inl exit
  | stopped unended stops exit disk out => exact .inr exit
  | listed reaches lists exit exit_iff disk => exact exit
  | written writes exit exit_iff text adds place disk => exact exit
  | refused reaches info json refuses exit adds out => exact .inr exit

theorem exit_eq_zero_iff (h : Ending d a e) :
    e.exit = 0 ↔ EndsEarly a ∨ ∃ files, Selects d a.inputs files ∧ AllCompile d files ∧
      (a.options.info = true ∨ a.options.json = true ∨ CanProduce d a.options files) := by
  cases h with
  | early ends exit disk => exact iff_of_true exit (.inl ends)
  | stopped unended stops exit disk out =>
      refine iff_of_false (by simp [exit]) ?_
      rintro (ends | ⟨files, hfiles, hall, -⟩)
      · exact unended ends
      · exact stops files hfiles (.inl hall)
  | listed reaches lists exit exit_iff disk =>
      rw [exit_iff]
      constructor
      · intro hall
        exact .inr ⟨_, reaches.selects, hall, by tauto⟩
      · rintro (ends | ⟨files, hfiles, hall, -⟩)
        · exact absurd ends reaches.not_endsEarly
        · exact reaches.selects.unique hfiles ▸ hall
  | written writes exit exit_iff text adds place disk =>
      rw [exit_iff]
      constructor
      · intro hall
        exact .inr ⟨_, writes.selects, hall, .inr (.inr writes.toCanProduce)⟩
      · rintro (ends | ⟨files, hfiles, hall, -⟩)
        · exact absurd ends writes.toReachesOutput.not_endsEarly
        · exact writes.selects.unique hfiles ▸ hall
  | refused reaches info json refuses exit adds out =>
      refine iff_of_false (by simp [exit]) ?_
      rintro (ends | ⟨files, hfiles, -, hproduces⟩)
      · exact reaches.not_endsEarly ends
      · rw [info, json, ← reaches.selects.unique hfiles] at hproduces
        simp [refuses] at hproduces

/-- A run that fails leaves nothing behind, unless it kept going past a failure to its output. -/
theorem silent_of_exit_ne_zero (h : Ending d a e) (hexit : e.exit ≠ 0) :
    (a.options.keepGoing = true ∧ ∃ files, ReachesOutput d a files ∧ ¬ AllCompile d files) ∨
      d.AddsFolders e.disk ∧ PrintsReports d a e.out := by
  cases h with
  | early ends exit disk => exact absurd exit hexit
  | stopped unended stops exit disk out => exact .inr ⟨disk ▸ .refl d, out⟩
  | listed reaches lists exit exit_iff disk =>
      have hsome := mt exit_iff.mpr hexit
      exact .inl ⟨reaches.goesOn.resolve_left hsome, _, reaches, hsome⟩
  | written writes exit exit_iff text adds place disk =>
      have hsome := mt exit_iff.mpr hexit
      exact .inl ⟨writes.goesOn.resolve_left hsome, _, writes.toReachesOutput, hsome⟩
  | refused reaches info json refuses exit adds out => exact .inr ⟨adds, out⟩

end Ending
end runs

/-- **A run changes at most its output file, and only when it should.**  Arguments that cannot be read
are an error and change nothing.  Otherwise no other file than the output differs after the run; the
output file holds the module of the compiled files if the run gets to writing it, and else all files are
as before.  The exit code is 0 if the run ends at the help or the version, or if every input stands for
some files, they all compile, and a module that is asked for can be written; else it is 1, and unless
keep-going took the run past a failure to its output, all files are as before and nothing was printed but the lines on
the files that the run compiled.  The last clause says what the output place is and when it opens, for a working
folder of plain names. -/
theorem frame_run (d : Disk) (arguments : List Text) :
    let e := run d arguments
    (∀ u, Arguments.read arguments = .error u → e.exit = 1 ∧ e.out = [] ∧ e.disk = d) ∧
    ∀ a, Arguments.read arguments = .ok a →
      (∀ p, p ≠ outputPlace d a.options →
        ∀ content, e.disk.get? p = some (.file content) ↔ d.get? p = some (.file content)) ∧
      (∀ files, WritesModule d a files →
        ∃ source, Script.write a.options.hostModule ((compiledOf d files).map CompiledFile.image) = .ok source ∧
          e.disk.get? (outputPlace d a.options) = some (.file source.encodeUtf8)) ∧
      ((¬ ∃ files, WritesModule d a files) →
        ∀ p content, e.disk.get? p = some (.file content) ↔ d.get? p = some (.file content)) ∧
      (e.exit = 0 ↔ EndsEarly a ∨ ∃ files, Selects d a.inputs files ∧ AllCompile d files ∧
        (a.options.info = true ∨ a.options.json = true ∨ CanProduce d a.options files)) ∧
      (e.exit ≠ 0 → e.exit = 1 ∧
        ((a.options.keepGoing = true ∧ ∃ files, ReachesOutput d a files ∧ ¬ AllCompile d files) ∨
          (∀ p content, e.disk.get? p = some (.file content) ↔ d.get? p = some (.file content)) ∧
            PrintsReports d a e.out)) ∧
      (d.working.IsProper →
        outputPlace d a.options = d.working.follow (a.options.out.getD defaultOutput) ∧
          (Opens d (outputPath d a.options) ↔ d.CanWrite (outputPlace d a.options))) := by
  intro e
  refine ⟨?_, ?_⟩
  · intro u hu
    simp [e, run, hu]
  · intro a ha
    have hending : Ending d a e := ending_run ha
    refine ⟨?_, ?_, ?_, hending.exit_eq_zero_iff, ?_, ?_⟩
    · intro p hp content
      rcases hending.disk_cases with ⟨-, hadds⟩ | ⟨-, source, d₁, -, -, hadds, -, hdisk⟩
      · exact hadds.file_iff p content
      · rw [hdisk, Disk.get?_insert, if_neg (fun h => hp h.2)]
        exact hadds.file_iff p content
    · intro files hfiles
      rcases hending.disk_cases with ⟨hnone, -⟩ | ⟨files', source, d₁, hwrites, hsource, -, hplace, hdisk⟩
      · exact absurd ⟨files, hfiles⟩ hnone
      · rw [hwrites.selects.unique hfiles.selects] at hsource
        refine ⟨source, hsource, ?_⟩
        rw [hdisk, Disk.get?_insert, if_pos ⟨hplace, rfl⟩]
    · intro hnone p content
      rcases hending.disk_cases with ⟨-, hadds⟩ | ⟨files, -, -, hwrites, -⟩
      · exact hadds.file_iff p content
      · exact absurd ⟨files, hwrites⟩ hnone
    · intro hexit
      refine ⟨hending.exit_cases.resolve_left hexit, ?_⟩
      rcases hending.silent_of_exit_ne_zero hexit with hgo | ⟨hadds, hout⟩
      · exact .inl hgo
      · exact .inr ⟨hadds.file_iff, hout⟩
    · intro hworking
      have hplace : outputPlace d a.options = d.working.follow (a.options.out.getD defaultOutput) :=
        outputPlace_eq hworking
      refine ⟨hplace, ?_⟩
      rw [hplace]
      exact CompiledFile.opens_text_iff (hworking.follow _)

end CommandLine
end Pictogram
