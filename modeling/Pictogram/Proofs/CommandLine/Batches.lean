import Pictogram.Proofs.CommandLine.Outcome

/-! # Batches that stop and batches that keep going

A batch that keeps going has the results of all its files, each as of the file on its own.  A batch that
stops has the same results up to the first failure (`UpToFailure`).  In both, the compiled and the failed
files are the two parts of the results, in their order (`Parts`).

`Tally.gather` works off the files as a program that may fail and that may change the disk: it reads a
file, compiles it, catches what goes wrong, reports the result and adds it to one of two lists.
`Tally.gather_eq` says that it always ends, with the disk as it was, and that its three lists are those
of `Batch.ofFiles`. -/

namespace Pictogram

/-! ### Prefixes up to a failure -/

namespace FileResult

/-- The compiled and the failed files among results, both in their order. -/
inductive Parts : List FileResult → List CompiledFile → List (Text × Text) → Prop where
  | nil : Parts [] [] []
  | compiled (c : CompiledFile) {rs cs fs} (rest : Parts rs cs fs) : Parts (.compiled c :: rs) (c :: cs) fs
  | failed (file report : Text) {rs cs fs} (rest : Parts rs cs fs) :
      Parts (.failed file report :: rs) cs ((file, report) :: fs)

theorem parts_filterMap (rs : List FileResult) : Parts rs (rs.filterMap compiled?) (rs.filterMap failed?) := by
  induction rs with
  | nil => exact .nil
  | cons r rs ih =>
      cases r with
      | compiled c => exact .compiled c ih
      | failed file report => exact .failed file report ih

/-- `front` is the shortest prefix of `rs` that contains a failure, or all of `rs` if there is none. -/
structure UpToFailure (front rs : List FileResult) : Prop where
  isPrefix : front <+: rs
  eq_of_none : (∀ r ∈ rs, r.isFailed = false) → front = rs
  exists_failed : (∃ r ∈ rs, r.isFailed = true) → ∃ r ∈ front, r.isFailed = true
  shortest : ∀ other, other <+: rs → (∃ r ∈ other, r.isFailed = true) → front <+: other

namespace UpToFailure

theorem nil : UpToFailure [] [] where
  isPrefix := List.prefix_rfl
  eq_of_none _ := rfl
  exists_failed h := h
  shortest _ _ _ := List.nil_prefix

theorem cons_failed {r : FileResult} (h : r.isFailed = true) (rs : List FileResult) : UpToFailure [r] (r :: rs) where
  isPrefix := ⟨rs, rfl⟩
  eq_of_none hnone := by simp [h] at hnone
  exists_failed _ := ⟨r, List.mem_singleton_self r, h⟩
  shortest other hother hfailed := by
    obtain ⟨q, hq, -⟩ := hfailed
    cases other with
    | nil => cases hq
    | cons q other =>
        obtain rfl := (List.cons_prefix_cons.mp hother).1
        exact ⟨other, rfl⟩

theorem cons_compiled {r : FileResult} (h : r.isFailed = false) {front rs : List FileResult}
    (hrest : UpToFailure front rs) : UpToFailure (r :: front) (r :: rs) where
  isPrefix := List.cons_prefix_cons.mpr ⟨rfl, hrest.isPrefix⟩
  eq_of_none hnone := by rw [hrest.eq_of_none fun q hq => hnone q (List.mem_cons_of_mem r hq)]
  exists_failed hfailed := by
    simp only [List.mem_cons, exists_eq_or_imp, h, Bool.false_eq_true, false_or] at hfailed ⊢
    exact hrest.exists_failed hfailed
  shortest other hother hfailed := by
    cases other with
    | nil =>
        obtain ⟨q, hq, -⟩ := hfailed
        cases hq
    | cons q other =>
        obtain ⟨rfl, hback⟩ := List.cons_prefix_cons.mp hother
        simp only [List.mem_cons, exists_eq_or_imp, h, Bool.false_eq_true, false_or] at hfailed
        exact List.cons_prefix_cons.mpr ⟨rfl, hrest.shortest other hback hfailed⟩

end UpToFailure
end FileResult

/-! ### Working off the files -/

/-- What can go wrong with a file. -/
inductive FileError where
  | disk (e : DiskError)
  | picture (e : CompileError)

def FileError.report (file : Text) : FileError → Text
  | disk e => Located.report DiskError.message file ⟨e, none⟩
  | picture e => e.report Fault.message file

/-- What a batch has gathered: the results as they were reported, and the two lists. -/
structure Tally where
  reported : List FileResult
  compiled : List CompiledFile
  failed : List (Text × Text)

namespace Tally

def empty : Tally := ⟨[], [], []⟩

/-- Reports a result and adds it to its list. -/
def add (t : Tally) : FileResult → Tally
  | .compiled c => { t with reported := t.reported ++ [.compiled c], compiled := t.compiled ++ [c] }
  | .failed file report =>
      { t with reported := t.reported ++ [.failed file report], failed := t.failed ++ [(file, report)] }

/-- Reads and compiles a file, unless something goes wrong. -/
def compileFile (file : Text) : EStateM FileError Disk CompiledFile := do
  let content ← MonadExcept.ofExcept (((← get).readFile file).mapError .disk)
  let picture ← MonadExcept.ofExcept ((Picture.compileBytes content).mapError .picture)
  return { file, name := ImageName.ofFile file, picture }

/-- The result of a file, whatever goes wrong with it. -/
def settle (file : Text) : EStateM FileError Disk FileResult :=
  tryCatch (return .compiled (← compileFile file)) fun e => return .failed file (e.report file)

/-- Works off files in order, up to the first failure unless the batch keeps going. -/
def gather (keepGoing : Bool) (t : Tally) : List Text → EStateM FileError Disk Tally
  | [] => return t
  | file :: files => do
      let r ← settle file
      if r.isFailed && !keepGoing then return t.add r else gather keepGoing (t.add r) files

theorem settle_eq (d : Disk) (file : Text) : settle file d = .ok (FileResult.ofFile d file) d := by
  unfold FileResult.ofFile
  show EStateM.tryCatch (EStateM.bind
    (EStateM.bind (MonadExcept.ofExcept ((d.readFile file).mapError FileError.disk)) _) _) _ d = _
  cases d.readFile file with
  | error e => rfl
  | ok content =>
      show EStateM.tryCatch (EStateM.bind
        (EStateM.bind (MonadExcept.ofExcept ((Picture.compileBytes content).mapError FileError.picture)) _) _) _ d = _
      dsimp only
      cases Picture.compileBytes content with
      | error e => rfl
      | ok picture => rfl

/-- The lists of a tally, continued by those of a batch. -/
def extend (t : Tally) (b : Batch) : Tally := ⟨t.reported ++ b.results, t.compiled ++ b.compiled, t.failed ++ b.failed⟩

theorem extend_cons (t : Tally) (r : FileResult) (rs : List FileResult) :
    t.extend ⟨r :: rs⟩ = (t.add r).extend ⟨rs⟩ := by
  cases r <;>
    simp [extend, add, Batch.compiled, Batch.failed, List.filterMap_cons, FileResult.compiled?, FileResult.failed?]

/-- Working off the files always ends, with the disk as it was and the lists of the batch. -/
theorem gather_eq (d : Disk) (keepGoing : Bool) (t : Tally) (files : List Text) :
    gather keepGoing t files d = .ok (t.extend (Batch.ofFiles d keepGoing files)) d := by
  induction files generalizing t with
  | nil => simp [gather, extend, Batch.ofFiles, Batch.resultsOf, Batch.compiled, Batch.failed, pure, EStateM.pure]
  | cons file files ih =>
      have hstep : gather keepGoing t (file :: files) d =
          (if (FileResult.ofFile d file).isFailed && !keepGoing then return t.add (FileResult.ofFile d file)
            else gather keepGoing (t.add (FileResult.ofFile d file)) files : EStateM FileError Disk Tally) d := by
        show EStateM.bind (settle file) _ d = _
        rw [EStateM.bind, settle_eq]
      rw [hstep]
      unfold Batch.ofFiles Batch.resultsOf
      dsimp only
      split
      · rw [extend_cons]
        simp [extend, Batch.compiled, Batch.failed, pure, EStateM.pure]
      · rw [extend_cons, ih]
        rfl

end Tally

/-! ### Stopping -/

namespace Batch

theorem parts_ofFiles (d : Disk) (keepGoing : Bool) (files : List Text) :
    FileResult.Parts (ofFiles d keepGoing files).results (ofFiles d keepGoing files).compiled
      (ofFiles d keepGoing files).failed :=
  FileResult.parts_filterMap _

theorem upToFailure_resultsOf (d : Disk) (files : List Text) :
    FileResult.UpToFailure (resultsOf d false files) (resultsOf d true files) := by
  induction files with
  | nil => exact .nil
  | cons file files ih =>
      unfold resultsOf
      cases hfile : (FileResult.ofFile d file).isFailed with
      | true => simpa [hfile] using .cons_failed hfile _
      | false => simpa [hfile] using ih.cons_compiled hfile

/-- A batch that stops has at most one failure. -/
theorem length_failed_stop_le (d : Disk) (files : List Text) : (ofFiles d false files).failed.length ≤ 1 := by
  unfold failed ofFiles
  induction files with
  | nil => simp [resultsOf]
  | cons file files ih =>
      unfold resultsOf
      cases hfile : FileResult.ofFile d file with
      | compiled c => simpa [FileResult.isFailed, List.filterMap_cons, FileResult.failed?] using ih
      | failed file report => simp [FileResult.isFailed, FileResult.failed?]

/-- **Stopping agrees with keeping going up to the first failure.**  A batch that keeps going has the
results of its files, each as of the file on its own.  A batch that stops has the shortest prefix of them
that contains a failure, or all of them if there is none, so it has at most one failure; it goes on to its
output exactly if the one that keeps going has none.  The compiled and failed files of both are the parts
of their results, in order.  Both are gathered by a program over the disk that never fails and leaves
the disk as it is. -/
theorem ofFiles_stop_keepGoing (d : Disk) (files : List Text) :
    let kept := ofFiles d true files
    let stopped := ofFiles d false files
    kept.results = files.map (FileResult.ofFile d) ∧
    FileResult.Parts kept.results kept.compiled kept.failed ∧
    FileResult.UpToFailure stopped.results kept.results ∧
    FileResult.Parts stopped.results stopped.compiled stopped.failed ∧
    stopped.failed.length ≤ 1 ∧
    Tally.gather true .empty files d = .ok ⟨kept.results, kept.compiled, kept.failed⟩ d ∧
    Tally.gather false .empty files d = .ok ⟨stopped.results, stopped.compiled, stopped.failed⟩ d ∧
    (stopped.producesOutput false = true ↔ kept.failed = []) := by
  intro kept stopped
  refine ⟨resultsOf_eq_map (.inr rfl), parts_ofFiles d true files, upToFailure_resultsOf d files,
    parts_ofFiles d false files, length_failed_stop_le d files, Tally.gather_eq d true .empty files,
    Tally.gather_eq d false .empty files, ?_⟩
  rw [producesOutput_iff, failed_ofFiles_eq_nil_iff]
  simp

end Batch
end Pictogram
