import Mathlib.Data.List.Nodup
import Mathlib.Data.List.TakeWhile
import Pictogram.Proofs.Script.Drawing

/-! # Names of images

A module accepts image names that are identifiers and all different; else it reports the first name that
is not (`Script.FirstFault`).  The lines of an image do not depend on the other images, so the module of
two lists of images is that of the first, followed by that of the second behind its header.

The name of a file is made from its stem: what stands behind the last slash or backslash
(`ImageName.IsBase`), up to its last dot (`ImageName.IsStem`), with an underscore for every unit that
cannot stand in an identifier (`ImageName.clean`). -/

namespace Pictogram

/-! ### Lines -/

namespace Text

/-- What follows the first line feeds. -/
def dropLines : Nat → Text → Text
  | 0, t => t
  | n + 1, t => dropLines n ((t.dropWhile (· ≠ unit '\n')).drop 1)

theorem dropLines_ofLines {lines : List Text} (h : ∀ l ∈ lines, unit '\n' ∉ l) (rest : Text) :
    dropLines lines.length (Script.ofLines lines ++ rest) = rest := by
  induction lines with
  | nil => rfl
  | cons l lines ih =>
      have hline : (l ++ unit '\n' :: (Script.ofLines lines ++ rest)).dropWhile (· ≠ unit '\n') =
          unit '\n' :: (Script.ofLines lines ++ rest) := by
        rw [List.dropWhile_append_of_pos, List.dropWhile_cons_of_neg (by simp)]
        intro u hu
        exact decide_eq_true fun heq => h l List.mem_cons_self (heq ▸ hu)
      rw [Script.ofLines_cons, List.append_assoc, List.append_assoc, List.length_cons, dropLines, List.singleton_append,
        hline, List.drop_one, List.tail_cons]
      exact ih fun l hl => h l (List.mem_cons_of_mem _ hl)

theorem not_mem_hexEscape (u : CodeUnit) : unit '\n' ∉ hexEscape u := by
  have hdigits : unit '\n' ∉ hex 4 u.toNat := by
    intro h
    exact absurd (Script.isWordUnit_hex 4 u.toNat _ h) (by decide)
  simp only [hexEscape, List.mem_cons, not_or]
  exact ⟨by decide, by decide, hdigits⟩

theorem Escaped.not_mem {t w : Text} (h : Escaped t w) : unit '\n' ∉ w := by
  induction h with
  | nil => simp
  | @plain u t w control quote backslash rest ih =>
      have hu : unit '\n' ≠ u := by
        rintro rfl
        exact control (by decide)
      simp [hu, ih]
  | @short u e t w escape rest ih =>
      have hbackslash : unit '\n' ≠ unit '\\' := by decide
      have he : unit '\n' ≠ e := by
        rintro rfl
        have hnone : Script.unescape? (unit '\n') = none := by decide
        rw [(Script.Lexing.unescape?_of_shortEscape? escape).2] at hnone
        cases hnone
      simp [hbackslash, he, ih]
  | byNumber u rest ih =>
      rw [List.mem_append, not_or]
      exact ⟨not_mem_hexEscape u, ih⟩

/-- Quoted text is one line. -/
theorem not_mem_quoted (t : Text) : unit '\n' ∉ t.quoted := by
  have hquote : unit '\n' ≠ unit '"' := by decide
  simp [quoted, (escaped_escape t).not_mem, hquote]

/-! ### Pieces -/

/-- The pieces behind a separator are the last ones. -/
theorem exists_splitOn_append {p : CodeUnit → Bool} {u : CodeUnit} (hu : p u = true) (front back : Text) :
    ∃ piece pieces, splitOn p (front ++ u :: back) = piece :: (pieces ++ splitOn p back) := by
  induction front with
  | nil => exact ⟨[], [], by simp [splitOn, hu]⟩
  | cons v front ih =>
      obtain ⟨piece, pieces, hsplit⟩ := ih
      cases hv : p v with
      | true => exact ⟨[], piece :: pieces, by simp [splitOn, hv, hsplit]⟩
      | false => exact ⟨v :: piece, pieces, by simp [splitOn, hv, hsplit]⟩

end Text

/-! ### Stems of files -/

namespace ImageName

def isSlash (u : CodeUnit) : Bool := u = unit '/' || u = unit '\\'

/-- What stands behind the last slash or backslash of a path. -/
inductive IsBase : (file base : Text) → Prop where
  | whole {base : Text} (h : ∀ u ∈ base, isSlash u = false) : IsBase base base
  | behind {folder base : Text} {u : CodeUnit} (hu : isSlash u = true) (h : ∀ u ∈ base, isSlash u = false) :
      IsBase (folder ++ u :: base) base

/-- A base name up to its last dot, unless it has no dot or the dot in front is its only one. -/
inductive IsStem : (base stem : Text) → Prop where
  | undotted {base : Text} (h : unit '.' ∉ base) : IsStem base base
  | hidden {rest : Text} (h : unit '.' ∉ rest) : IsStem (unit '.' :: rest) (unit '.' :: rest)
  | dotted {stem extension : Text} (hne : stem ≠ []) (h : unit '.' ∉ extension) :
      IsStem (stem ++ unit '.' :: extension) stem

/-- The text with an underscore for every unit that no identifier has. -/
def clean (t : Text) : Text := t.map fun u => if isPart u then u else unit '_'

/-- Files whose stems are the same once they are clean. -/
def SameStem (file file' : Text) : Prop :=
  ∃ base base' stem stem', IsBase file base ∧ IsBase file' base' ∧ IsStem base stem ∧ IsStem base' stem' ∧
    clean stem = clean stem'

theorem IsBase.lastComponent_eq {file base : Text} (h : IsBase file base) : lastComponent file = base := by
  show ((Text.splitOn isSlash file).getLast?).getD file = base
  cases h with
  | whole h => rw [Text.splitOn_of_none h]; rfl
  | behind hu h =>
      obtain ⟨piece, pieces, hsplit⟩ := Text.exists_splitOn_append hu _ base
      rw [hsplit, Text.splitOn_of_none h, ← List.cons_append, List.getLast?_append]
      rfl

theorem exists_isBase (file : Text) : ∃ base, IsBase file base := by
  induction file with
  | nil => exact ⟨[], .whole (by simp)⟩
  | cons u file ih =>
      obtain ⟨base, hbase⟩ := ih
      cases hbase with
      | whole h =>
          cases hu : isSlash u with
          | true => exact ⟨file, @IsBase.behind [] file u hu h⟩
          | false => exact ⟨u :: file, .whole (List.forall_mem_cons.mpr ⟨hu, h⟩)⟩
      | @behind folder _ v hv h => exact ⟨base, @IsBase.behind (u :: folder) base v hv h⟩

theorem isBase_lastComponent (file : Text) : IsBase file (lastComponent file) := by
  obtain ⟨base, hbase⟩ := exists_isBase file
  rw [hbase.lastComponent_eq]
  exact hbase

theorem stem_of_not_mem {base : Text} (h : unit '.' ∉ base) : stem base = base := by
  have hall : base.reverse.takeWhile (· ≠ unit '.') = base.reverse := by
    rw [List.takeWhile_eq_self_iff]
    intro u hu
    exact decide_eq_true fun heq => h (heq ▸ List.mem_reverse.mp hu)
  simp only [stem, hall, List.length_reverse, lt_irrefl, false_and, if_false]

theorem stem_append_dot (front : Text) {extension : Text} (h : unit '.' ∉ extension) :
    stem (front ++ unit '.' :: extension) = if front = [] then unit '.' :: extension else front := by
  have hextension : (front ++ unit '.' :: extension).reverse.takeWhile (· ≠ unit '.') = extension.reverse := by
    rw [List.reverse_append, List.reverse_cons, List.append_assoc, List.takeWhile_append_of_pos]
    · simp
    · intro u hu
      exact decide_eq_true fun heq => h (heq ▸ List.mem_reverse.mp hu)
  have hlength : (front ++ unit '.' :: extension).length - extension.length - 1 = front.length := by
    simp only [List.length_append, List.length_cons]
    omega
  simp only [stem, hextension, List.length_reverse, hlength]
  by_cases hfront : front = []
  · simp [hfront]
  · have hpos : 0 < front.length := List.length_pos_iff.mpr hfront
    have hlt : extension.length < (front ++ unit '.' :: extension).length := by
      simp only [List.length_append, List.length_cons]
      omega
    simp only [hlt, hpos, and_self, if_true, if_neg hfront, List.take_left]

theorem IsStem.stem_eq {base s : Text} (h : IsStem base s) : stem base = s := by
  cases h with
  | undotted h => exact stem_of_not_mem h
  | hidden h => exact stem_append_dot [] h
  | dotted hne h => rw [stem_append_dot _ h, if_neg hne]

theorem isStem_stem (base : Text) : IsStem base (stem base) := by
  by_cases h : unit '.' ∈ base
  · obtain ⟨front, extension, rfl, hextension⟩ : ∃ front extension, base = front ++ unit '.' :: extension ∧
        unit '.' ∉ extension := by
      obtain ⟨before, behind, hreverse, hbefore⟩ := List.eq_append_cons_of_mem (List.mem_reverse.mpr h)
      refine ⟨behind.reverse, before.reverse, ?_, by simpa using hbefore⟩
      rw [← List.reverse_reverse base, hreverse]
      simp
    rw [stem_append_dot front hextension]
    split
    · rename_i hfront
      subst hfront
      exact .hidden hextension
    · rename_i hfront
      exact .dotted hfront hextension
  · rw [stem_of_not_mem h]
    exact .undotted h

theorem isValid_ofFile (file : Text) : isValid (ofFile file) = true := by
  have hlit : lit "Image_" = unit 'I' :: lit "mage_" := by decide
  have hfirst : isLetter (unit 'I') = true := by decide
  have hfront : (lit "mage_").all isPart = true := by decide
  unfold ofFile
  rw [hlit, List.cons_append, isValid, hfirst, Bool.true_and, List.all_append, hfront, Bool.true_and, List.all_map,
    List.all_eq_true]
  intro u _
  show isPart (if isPart u then u else unit '_') = true
  split
  · assumption
  · decide

theorem ofFile_eq (file : Text) : ofFile file = lit "Image_" ++ clean (stem (lastComponent file)) := rfl

/-- Files have the same image name exactly if their stems are the same once they are clean. -/
theorem ofFile_eq_iff {file file' : Text} : ofFile file = ofFile file' ↔ SameStem file file' := by
  rw [ofFile_eq, ofFile_eq, List.append_cancel_left_eq]
  constructor
  · intro h
    exact ⟨_, _, _, _, isBase_lastComponent file, isBase_lastComponent file', isStem_stem _, isStem_stem _, h⟩
  · rintro ⟨base, base', s, s', hbase, hbase', hs, hs', h⟩
    rw [hbase.lastComponent_eq, hbase'.lastComponent_eq, hs.stem_eq, hs'.stem_eq, h]

end ImageName

/-! ### Modules -/

namespace Script

/-- Names that a module accepts: identifiers that all differ. -/
def Accepted (names : List Text) : Prop := (∀ n ∈ names, ImageName.isValid n = true) ∧ names.Nodup

/-- What is wrong with the first name that is no identifier or that repeats an earlier one. -/
inductive FirstFault : List Text → ImageNameError → Prop where
  | invalid {front back : List Text} {name : Text} (accepted : Accepted front)
      (h : ImageName.isValid name = false) : FirstFault (front ++ name :: back) (.invalid name)
  | duplicate {front back : List Text} {name : Text} (accepted : Accepted front)
      (valid : ImageName.isValid name = true) (h : name ∈ front) : FirstFault (front ++ name :: back) (.duplicate name)

theorem nameError?_nil_eq_none_iff {names : List Text} : nameError? [] names = none ↔ Accepted names := by
  rw [nameError?_eq_none_iff]
  simp [Accepted]

theorem nameError?_append (seen names names' : List Text) :
    nameError? seen (names ++ names') = (nameError? seen names).or (nameError? (names.reverse ++ seen) names') := by
  induction names generalizing seen with
  | nil => rfl
  | cons n names ih =>
      show (if ImageName.isValid n = false then some (.invalid n)
          else if n ∈ seen then some (.duplicate n) else nameError? (n :: seen) (names ++ names')) =
        (if ImageName.isValid n = false then some (.invalid n)
          else if n ∈ seen then some (.duplicate n) else nameError? (n :: seen) names).or _
      split
      · rfl
      · split
        · rfl
        · rw [ih, List.reverse_cons, List.append_assoc]
          rfl

theorem nameError?_singleton_eq_some_iff {seen : List Text} {name : Text} {e : ImageNameError} :
    nameError? seen [name] = some e ↔
      ImageName.isValid name = false ∧ e = .invalid name ∨
        ImageName.isValid name = true ∧ name ∈ seen ∧ e = .duplicate name := by
  show (if ImageName.isValid name = false then some (.invalid name)
    else if name ∈ seen then some (.duplicate name) else none) = some e ↔ _
  cases hvalid : ImageName.isValid name with
  | false => simp [eq_comm]
  | true => by_cases hseen : name ∈ seen <;> simp [hseen, eq_comm]

/-- A fault is found at a name whose predecessors have none. -/
theorem exists_append_of_nameError? {seen names : List Text} {e : ImageNameError} (h : nameError? seen names = some e) :
    ∃ front name back, names = front ++ name :: back ∧ nameError? seen front = none ∧
      nameError? (front.reverse ++ seen) [name] = some e := by
  induction names generalizing seen with
  | nil => cases h
  | cons n names ih =>
      rw [← List.singleton_append, nameError?_append] at h
      cases hn : nameError? seen [n] with
      | some e' =>
          rw [hn] at h
          cases h
          exact ⟨[], n, names, rfl, rfl, hn⟩
      | none =>
          rw [hn, Option.none_or] at h
          obtain ⟨front, name, back, rfl, hfront, hname⟩ := ih h
          refine ⟨n :: front, name, back, rfl, ?_, by simpa using hname⟩
          rw [← List.singleton_append, nameError?_append, hn, Option.none_or]
          exact hfront

/-- The error of a list of names is about the first one that is at fault. -/
theorem nameError?_eq_some_iff {names : List Text} {e : ImageNameError} :
    nameError? [] names = some e ↔ FirstFault names e := by
  have hfirst {front back : List Text} {name : Text} (haccepted : Accepted front)
      (hname : nameError? (front.reverse ++ []) [name] = some e) : nameError? [] (front ++ name :: back) = some e := by
    rw [nameError?_append, nameError?_nil_eq_none_iff.mpr haccepted, Option.none_or, ← List.singleton_append,
      nameError?_append, hname, Option.some_or]
  constructor
  · intro h
    obtain ⟨front, name, back, rfl, hfront, hname⟩ := exists_append_of_nameError? h
    have haccepted := nameError?_nil_eq_none_iff.mp hfront
    rcases nameError?_singleton_eq_some_iff.mp hname with ⟨hinvalid, rfl⟩ | ⟨hvalid, hseen, rfl⟩
    · exact .invalid haccepted hinvalid
    · exact .duplicate haccepted hvalid (by simpa using hseen)
  · intro h
    cases h with
    | invalid accepted h => exact hfirst accepted (nameError?_singleton_eq_some_iff.mpr (.inl ⟨h, rfl⟩))
    | duplicate accepted valid h =>
        exact hfirst accepted (nameError?_singleton_eq_some_iff.mpr (.inr ⟨valid, by simpa using h, rfl⟩))

theorem write_eq_ok_iff {hostModule : Option Text} {images : List Image} {t : Text} :
    write hostModule images = .ok t ↔ Accepted (images.map Image.name) ∧
      t = ofLines (headerLines (hostModule.getD defaultHostModule)) ++
        ofLines (images.flatMap fun i => [] :: imageLines i) := by
  rw [write, ← nameError?_nil_eq_none_iff, ← ofLines_append]
  cases nameError? [] (images.map Image.name) with
  | none => simp [eq_comm]
  | some e => simp

theorem write_eq_error_iff {hostModule : Option Text} {images : List Image} {e : ImageNameError} :
    write hostModule images = .error e ↔ FirstFault (images.map Image.name) e := by
  rw [write, ← nameError?_eq_some_iff]
  cases nameError? [] (images.map Image.name) with
  | none => simp
  | some e' => simp

/-- Every line of the header is one line. -/
theorem not_mem_headerLines (hostModule : Text) : ∀ l ∈ headerLines hostModule, unit '\n' ∉ l := by
  have hfront : unit '\n' ∉ lit "import type \x7b CompiledImage, DrawHost \x7d from " := by decide
  simp only [headerLines, List.forall_mem_cons, List.not_mem_nil, false_imp_iff, implies_true, and_true,
    List.mem_append, not_or]
  exact ⟨by decide, not_false, hfront, Text.not_mem_quoted hostModule⟩

/-- Two lists of images are written one after the other. -/
theorem write_append {hostModule : Option Text} {xs ys : List Image} {t : Text}
    (h : write hostModule (xs ++ ys) = .ok t) :
    ∃ tx ty, write hostModule xs = .ok tx ∧ write hostModule ys = .ok ty ∧ t = tx ++ ty.dropLines 3 := by
  obtain ⟨⟨hvalid, hdistinct⟩, rfl⟩ := write_eq_ok_iff.mp h
  rw [List.map_append, List.forall_mem_append] at hvalid
  rw [List.map_append, List.nodup_append] at hdistinct
  refine ⟨_, _, write_eq_ok_iff.mpr ⟨⟨hvalid.1, hdistinct.1⟩, rfl⟩,
    write_eq_ok_iff.mpr ⟨⟨hvalid.2, hdistinct.2.1⟩, rfl⟩, ?_⟩
  have hheader := Text.dropLines_ofLines (not_mem_headerLines (hostModule.getD defaultHostModule))
    (ofLines (ys.flatMap fun i => [] :: imageLines i))
  rw [show Text.dropLines 3 _ = _ from hheader, List.flatMap_append, ofLines_append, List.append_assoc]

theorem exists_write_eq_error_iff {hostModule : Option Text} {images : List Image} :
    (∃ e, write hostModule images = .error e) ↔ ¬ Accepted (images.map Image.name) := by
  rw [← nameError?_nil_eq_none_iff, write]
  cases nameError? [] (images.map Image.name) with
  | none => simp
  | some e => simp

/-- The images of files, with the names that the files give them. -/
def imagesOf (files : List (Text × Picture)) : List Image := files.map fun f => ⟨ImageName.ofFile f.1, f.2⟩

theorem accepted_imagesOf_iff {files : List (Text × Picture)} :
    Accepted ((imagesOf files).map Image.name) ↔
      ∀ (i j : Nat) (f g : Text × Picture), i < j → files[i]? = some f → files[j]? = some g →
        ¬ ImageName.SameStem f.1 g.1 := by
  have hnames : (imagesOf files).map Image.name = files.map fun f => ImageName.ofFile f.1 := by
    rw [imagesOf, List.map_map]
    rfl
  have hvalid : ∀ n ∈ files.map fun f => ImageName.ofFile f.1, ImageName.isValid n = true := by
    rw [List.forall_mem_map]
    exact fun f _ => ImageName.isValid_ofFile f.1
  rw [hnames, Accepted, and_iff_right hvalid, List.nodup_iff_getElem?_ne_getElem?]
  constructor
  · intro hdistinct i j f g hij hf hg hsame
    obtain ⟨hj, -⟩ := List.getElem?_eq_some_iff.mp hg
    refine hdistinct i j hij (by simpa using hj) ?_
    rw [List.getElem?_map, List.getElem?_map, hf, hg, Option.map_some, Option.map_some,
      ImageName.ofFile_eq_iff.mpr hsame]
  · intro hstems i j hij hj heq
    rw [List.length_map] at hj
    rw [List.getElem?_map, List.getElem?_map, List.getElem?_eq_getElem hj, List.getElem?_eq_getElem (hij.trans hj),
      Option.map_some, Option.map_some, Option.some_inj] at heq
    exact hstems i j _ _ hij (List.getElem?_eq_getElem (hij.trans hj)) (List.getElem?_eq_getElem hj)
      (ImageName.ofFile_eq_iff.mp heq)

/-- **A module fails on its names only, and is written image by image.**  Images are accepted exactly if
their names are identifiers that all differ; else the error is about the first name at fault.  The module
of two lists of images is that of the first, followed by that of the second without its three header lines.
Every file gives an identifier, so images named by files are refused exactly if two of the files have the
same stem once units that no identifier has are replaced. -/
theorem write_by_names (hostModule : Option Text) :
    (∀ images, (∃ e, write hostModule images = .error e) ↔ ¬ Accepted (images.map Image.name)) ∧
    (∀ images e, write hostModule images = .error e ↔ FirstFault (images.map Image.name) e) ∧
    (∀ xs ys t, write hostModule (xs ++ ys) = .ok t →
      ∃ tx ty, write hostModule xs = .ok tx ∧ write hostModule ys = .ok ty ∧ t = tx ++ ty.dropLines 3) ∧
    (∀ file, ImageName.isValid (ImageName.ofFile file) = true) ∧
    ∀ files, (∃ e, write hostModule (imagesOf files) = .error e) ↔
      ∃ (i j : Nat) (f g : Text × Picture), i < j ∧ files[i]? = some f ∧ files[j]? = some g ∧
        ImageName.SameStem f.1 g.1 := by
  refine ⟨fun images => exists_write_eq_error_iff, fun images e => write_eq_error_iff, fun xs ys t => write_append,
    ImageName.isValid_ofFile, ?_⟩
  intro files
  rw [exists_write_eq_error_iff, accepted_imagesOf_iff]
  simp only [not_forall, not_not, exists_prop]

end Script
end Pictogram
