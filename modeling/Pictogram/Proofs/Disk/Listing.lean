import Mathlib.Data.List.Nodup
import Mathlib.Data.List.Perm.Basic
import Pictogram.Proofs.Disk.Expansion

/-! # Folders listed in any order

The files of a pattern can be found by a walk that lists the folder of the pattern and, if the pattern holds `**`, the
folders in it, one inside the other.  Whatever the order in which each folder lists its places, such a walk comes to an
end (`exists_visits`) and meets every file it should exactly once (`Visits.perm_filesIn`).  So what expansion gives, in
ascending order, depends neither on that order nor on the order of the places of the disk (`expand_ascending`). -/

namespace Pictogram

/-! ### Texts in order -/

namespace Text

/-- The texts in ascending order. -/
def sort (ts : List Text) : List Text := ts.mergeSort fun a b => decide (a ≤ b)

variable {ts ts' : List Text}

theorem sort_perm (ts : List Text) : (sort ts).Perm ts := List.mergeSort_perm ts _

theorem pairwise_sort (ts : List Text) : (sort ts).Pairwise fun a b => decide (a ≤ b) = true := by
  refine List.pairwise_mergeSort ?_ ?_ ts
  · intro a b c hab hbc
    exact decide_eq_true (List.le_trans (of_decide_eq_true hab) (of_decide_eq_true hbc))
  · intro a b
    rw [Bool.or_eq_true, decide_eq_true_eq, decide_eq_true_eq]
    exact List.le_total a b

theorem pairwise_lt_sort (h : ts.Nodup) : (sort ts).Pairwise (· < ·) := by
  have hnodup : (sort ts).Pairwise (· ≠ ·) := (sort_perm ts).nodup_iff.mpr h
  refine ((pairwise_sort ts).and hnodup).imp ?_
  rintro a b ⟨hle, hne⟩
  exact Std.lt_of_le_of_ne (of_decide_eq_true hle) hne

/-- There is one way to put texts in ascending order. -/
theorem sort_eq (h : ts.Perm ts') (hle : ts'.Pairwise fun a b => decide (a ≤ b) = true) : sort ts = ts' := by
  refine List.Perm.eq_of_pairwise ?_ (pairwise_sort ts) hle ((sort_perm ts).trans h)
  intro a b _ _ hab hba
  exact List.le_antisymm (of_decide_eq_true hab) (of_decide_eq_true hba)

theorem sort_eq_of_perm (h : ts.Perm ts') : sort ts = sort ts' :=
  sort_eq (h.trans (sort_perm ts').symm) (pairwise_sort ts')

end Text

namespace Disk

variable {d d' : Disk} {folder place p : Path} {name : Text} {names : List Text} {e : Entry} {recursive : Bool}
  {base pattern literal wildcard : Text} {files : List Text}

/-! ### Places given once -/

/-- No two entries are for one place. -/
def IsSimple (d : Disk) : Prop := (d.entries.map Prod.fst).Nodup

instance (d : Disk) : Decidable d.IsSimple := inferInstanceAs (Decidable (List.Nodup _))

theorem get?_eq_some_iff (hd : d.IsSimple) (hp : p ≠ []) : d.get? p = some e ↔ (p, e) ∈ d.entries := by
  refine ⟨mem_entries_of_get? hp, ?_⟩
  intro h
  obtain ⟨before, behind, hentries⟩ := List.append_of_mem h
  rw [get?, if_neg hp, List.lookup_eq_some_iff]
  refine ⟨before, behind, hentries, ?_⟩
  intro x hx
  rw [bne_iff_ne]
  rintro rfl
  rw [IsSimple, hentries, List.map_append, List.map_cons] at hd
  exact (List.nodup_append.mp hd).2.2 x.1 (List.mem_map_of_mem hx) x.1 List.mem_cons_self rfl

theorem IsSimple.of_perm (hd : d.IsSimple) (h : d'.entries.Perm d.entries) : d'.IsSimple :=
  (h.map Prod.fst).nodup_iff.mpr hd

/-- What is where does not depend on the order of the entries. -/
theorem get?_eq_of_perm (hd : d.IsSimple) (h : d'.entries.Perm d.entries) (p : Path) : d'.get? p = d.get? p := by
  by_cases hp : p = []
  · rw [hp, get?_nil, get?_nil]
  · ext e
    rw [get?_eq_some_iff (hd.of_perm h) hp, get?_eq_some_iff hd hp, h.mem_iff]

/-! ### Files at a place and below it -/

/-- A file at a place or, if folders are entered, below it. -/
def HoldsFile (d : Disk) (recursive : Bool) (place p : Path) : Prop :=
  (∃ content, d.get? p = some (.file content)) ∧ ∃ rel, p = place ++ rel ∧ (rel = [] ∨ recursive = true)

theorem holdsFile_iff_of_file (hd : d.IsTree) {content : Bytes} (h : d.get? place = some (.file content)) :
    d.HoldsFile recursive place p ↔ p = place := by
  constructor
  · rintro ⟨⟨content', hfile⟩, rel, rfl, -⟩
    by_cases hrel : rel = []
    · rw [hrel, List.append_nil]
    · rw [hd.get?_folder hrel hfile] at h
      cases h
  · rintro rfl
    exact ⟨⟨content, h⟩, [], (List.append_nil p).symm, .inl rfl⟩

theorem not_holdsFile_of_folder (h : d.get? place = some .folder) (hrec : recursive = false) :
    ¬ d.HoldsFile recursive place p := by
  rintro ⟨⟨content, hfile⟩, rel, rfl, rfl | hrec'⟩
  · rw [List.append_nil, h] at hfile
    cases hfile
  · rw [hrec] at hrec'
    cases hrec'

/-- A folder that is entered holds the files that the places in it hold. -/
theorem holdsFile_iff_of_folder (h : d.get? place = some .folder) (hrec : recursive = true) :
    d.HoldsFile recursive place p ↔ ∃ name, d.HoldsFile recursive (place ++ [name]) p := by
  constructor
  · rintro ⟨⟨content, hfile⟩, rel, rfl, -⟩
    cases rel with
    | nil =>
        rw [List.append_nil, h] at hfile
        cases hfile
    | cons name rel => exact ⟨name, ⟨content, hfile⟩, rel, by simp, .inr hrec⟩
  · rintro ⟨name, hfile, rel, rfl, -⟩
    exact ⟨hfile, name :: rel, by simp, .inr hrec⟩

theorem HoldsFile.isSome (hd : d.IsTree) (h : d.HoldsFile recursive place p) : (d.get? place).isSome := by
  obtain ⟨⟨content, hfile⟩, rel, rfl, -⟩ := h
  by_cases hrel : rel = []
  · rw [hrel, List.append_nil] at hfile
    simp [hfile]
  · simp [hd.get?_folder hrel hfile]

theorem mem_filesIn_iff_holdsFile (hd : d.IsSimple) :
    p ∈ d.filesIn folder recursive ↔ ∃ name, d.HoldsFile recursive (folder ++ [name]) p := by
  rw [mem_filesIn_iff]
  constructor
  · rintro ⟨⟨content, hmem⟩, ⟨back, rfl⟩, hlength⟩
    rw [List.length_append] at hlength
    cases back with
    | nil => simp at hlength
    | cons name rel =>
        refine ⟨name, ⟨content, (get?_eq_some_iff hd (by simp)).mpr hmem⟩, rel, by simp, ?_⟩
        rcases hlength with hdirect | ⟨hrec, -⟩
        · rw [List.length_cons] at hdirect
          exact .inl (List.length_eq_zero_iff.mp (by omega))
        · exact .inr hrec
  · rintro ⟨name, ⟨content, hfile⟩, rel, rfl, hrel⟩
    refine ⟨⟨content, mem_entries_of_get? (by simp) hfile⟩, ⟨name :: rel, by simp⟩, ?_⟩
    rcases hrel with rfl | hrec
    · exact .inl (by simp)
    · exact .inr ⟨hrec, by simp⟩

theorem nodup_filesIn (hd : d.IsSimple) (folder : Path) (recursive : Bool) : (d.filesIn folder recursive).Nodup := by
  unfold filesIn
  rw [List.Nodup, List.pairwise_filterMap]
  refine (List.pairwise_map.mp hd).imp ?_
  rintro ⟨p, e⟩ ⟨q, e'⟩ hne p' hp q' hq
  cases e with
  | folder => cases hp
  | file =>
      cases e' with
      | folder => cases hq
      | file =>
          simp only [Option.ite_none_right_eq_some, Option.some.injEq] at hp hq
          rw [← hp.2, ← hq.2]
          exact hne

/-! ### Walks -/

/-- The names of the places in a folder, each once. -/
def Lists (d : Disk) (folder : Path) (names : List Text) : Prop :=
  names.Nodup ∧ ∀ name, name ∈ names ↔ (d.get? (folder ++ [name])).isSome

/-- The names of the places in a folder, in the order of the entries. -/
def namesIn (d : Disk) (folder : Path) : List Text :=
  d.entries.filterMap fun x => if x.1.dropLast = folder then x.1.getLast? else none

theorem eq_append_of_getLast? (h : (if p.dropLast = folder then p.getLast? else none) = some name) :
    p = folder ++ [name] := by
  rw [Option.ite_none_right_eq_some] at h
  obtain ⟨rfl, hlast⟩ := h
  exact (List.dropLast_append_getLast? name hlast).symm

theorem lists_namesIn (hd : d.IsSimple) (folder : Path) : d.Lists folder (d.namesIn folder) := by
  constructor
  · unfold namesIn
    rw [List.Nodup, List.pairwise_filterMap]
    refine (List.pairwise_map.mp hd).imp ?_
    rintro x y hne name hx name' hy rfl
    exact hne ((eq_append_of_getLast? hx).trans (eq_append_of_getLast? hy).symm)
  · intro name
    rw [Option.isSome_iff_exists, namesIn, List.mem_filterMap]
    simp only [get?_eq_some_iff hd (List.append_ne_nil_of_right_ne_nil folder (List.cons_ne_nil name []))]
    constructor
    · rintro ⟨x, hx, hname⟩
      exact ⟨x.2, eq_append_of_getLast? hname ▸ hx⟩
    · rintro ⟨e, he⟩
      exact ⟨_, he, by simp⟩

/-- A walk meets the files `found` at the places of the given names in a folder, in turn.  It enters the folders among
them if it is recursive, and `order` is how each folder lists its places. -/
inductive Visits (d : Disk) (recursive : Bool) (order : Path → List Text) :
    (folder : Path) → (names : List Text) → (found : List Path) → Prop
  | nil (folder : Path) : Visits d recursive order folder [] []
  | file {folder : Path} {name : Text} {names : List Text} {found : List Path} {content : Bytes} :
      d.get? (folder ++ [name]) = some (.file content) → Visits d recursive order folder names found →
      Visits d recursive order folder (name :: names) ((folder ++ [name]) :: found)
  | pass {folder : Path} {name : Text} {names : List Text} {found : List Path} :
      d.get? (folder ++ [name]) = some .folder → recursive = false → Visits d recursive order folder names found →
      Visits d recursive order folder (name :: names) found
  | enter {folder : Path} {name : Text} {names : List Text} {below found : List Path} :
      d.get? (folder ++ [name]) = some .folder → recursive = true →
      Visits d recursive order (folder ++ [name]) (order (folder ++ [name])) below →
      Visits d recursive order folder names found → Visits d recursive order folder (name :: names) (below ++ found)

variable {order : Path → List Text} {found : List Path}

theorem Lists.exists_mem_iff (hd : d.IsTree) (h : d.Lists folder names) :
    (∃ name ∈ names, d.HoldsFile recursive (folder ++ [name]) p) ↔
      ∃ name, d.HoldsFile recursive (folder ++ [name]) p := by
  constructor
  · rintro ⟨name, -, hfile⟩
    exact ⟨name, hfile⟩
  · rintro ⟨name, hfile⟩
    exact ⟨name, (h.2 name).mpr (hfile.isSome hd), hfile⟩

/-- A walk meets the files that its places hold. -/
theorem Visits.mem_iff (hd : d.IsTree) (horder : ∀ folder, d.Lists folder (order folder))
    (h : Visits d recursive order folder names found) :
    p ∈ found ↔ ∃ name ∈ names, d.HoldsFile recursive (folder ++ [name]) p := by
  induction h with
  | nil folder => simp
  | file hget _ ih =>
      simp only [List.mem_cons, exists_eq_or_imp, ih, holdsFile_iff_of_file hd hget]
  | pass hget hrec _ ih =>
      simp only [List.mem_cons, exists_eq_or_imp, ih, not_holdsFile_of_folder hget hrec, false_or]
  | enter hget hrec _ _ ihbelow ih =>
      simp only [List.mem_append, List.mem_cons, exists_eq_or_imp, ih, ihbelow, holdsFile_iff_of_folder hget hrec,
        (horder _).exists_mem_iff hd]

/-- No file is held by two places of a folder. -/
theorem HoldsFile.name_eq {name' : Text} (h : d.HoldsFile recursive (folder ++ [name]) p)
    (h' : d.HoldsFile recursive (folder ++ [name']) p) : name = name' := by
  obtain ⟨-, rel, rfl, -⟩ := h
  obtain ⟨-, rel', heq, -⟩ := h'
  rw [List.append_assoc, List.append_assoc] at heq
  exact (List.cons.inj (List.append_cancel_left heq)).1

/-- A walk meets no file twice. -/
theorem Visits.nodup (hd : d.IsTree) (horder : ∀ folder, d.Lists folder (order folder)) (hnames : names.Nodup)
    (h : Visits d recursive order folder names found) : found.Nodup := by
  induction h with
  | nil => exact List.nodup_nil
  | @file folder name names found content hget hrest ih =>
      obtain ⟨hname, hnames⟩ := List.nodup_cons.mp hnames
      refine List.nodup_cons.mpr ⟨?_, ih hnames⟩
      intro hmem
      obtain ⟨name', hname', hfile⟩ := (hrest.mem_iff hd horder).mp hmem
      have hself : d.HoldsFile recursive (folder ++ [name]) (folder ++ [name]) :=
        (holdsFile_iff_of_file hd hget).mpr rfl
      exact hname (hself.name_eq hfile ▸ hname')
  | pass _ _ _ ih => exact ih (List.nodup_cons.mp hnames).2
  | @enter folder name names below found hget hrec hbelow hrest ihbelow ih =>
      obtain ⟨hname, hnames⟩ := List.nodup_cons.mp hnames
      refine List.Nodup.append (ihbelow (horder _).1) (ih hnames) ?_
      intro p hp hp'
      rw [hbelow.mem_iff hd horder, (horder _).exists_mem_iff hd, ← holdsFile_iff_of_folder hget hrec] at hp
      obtain ⟨name', hname', hfile⟩ := (hrest.mem_iff hd horder).mp hp'
      exact hname (hp.name_eq hfile ▸ hname')

/-- A walk through a folder meets the files in it, in some order. -/
theorem Visits.perm_filesIn (hd : d.IsTree) (hsimple : d.IsSimple) (horder : ∀ folder, d.Lists folder (order folder))
    (h : Visits d recursive order folder (order folder) found) : found.Perm (d.filesIn folder recursive) := by
  refine (List.perm_ext_iff_of_nodup (h.nodup hd horder (horder folder).1) (nodup_filesIn hsimple _ _)).mpr ?_
  intro p
  rw [h.mem_iff hd horder, (horder folder).exists_mem_iff hd, mem_filesIn_iff_holdsFile hsimple]

/-- A walk comes to an end, since it gets deeper with each folder that it enters: `depth` is how much deeper than the
folder the places of the disk are. -/
theorem exists_visits_of_depth (horder : ∀ folder, d.Lists folder (order folder)) (recursive : Bool) {depth : Nat}
    (hdepth : ∀ x ∈ d.entries, x.1.length ≤ folder.length + depth)
    (hnames : ∀ name ∈ names, (d.get? (folder ++ [name])).isSome) :
    ∃ found, Visits d recursive order folder names found := by
  induction depth generalizing folder names with
  | zero =>
      cases names with
      | nil => exact ⟨[], .nil folder⟩
      | cons name names =>
          obtain ⟨e, he⟩ := Option.isSome_iff_exists.mp (hnames name List.mem_cons_self)
          have hle := hdepth _ (mem_entries_of_get? (by simp) he)
          rw [List.length_append, List.length_singleton] at hle
          omega
  | succ depth ihdepth =>
      induction names with
      | nil => exact ⟨[], .nil folder⟩
      | cons name names ih =>
          obtain ⟨hname, hnames⟩ := List.forall_mem_cons.mp hnames
          obtain ⟨found, hfound⟩ := ih hnames
          obtain ⟨e, he⟩ := Option.isSome_iff_exists.mp hname
          match e, recursive with
          | .file content, _ => exact ⟨_, .file he hfound⟩
          | .folder, false => exact ⟨_, .pass he rfl hfound⟩
          | .folder, true =>
              have hdeeper : ∀ x ∈ d.entries, x.1.length ≤ (folder ++ [name]).length + depth := by
                intro x hx
                have hle := hdepth x hx
                rw [List.length_append, List.length_singleton]
                omega
              obtain ⟨below, hbelow⟩ := ihdepth hdeeper fun n => ((horder _).2 n).mp
              exact ⟨_, .enter he rfl hbelow hfound⟩

theorem exists_visits (horder : ∀ folder, d.Lists folder (order folder)) (recursive : Bool) (folder : Path) :
    ∃ found, Visits d recursive order folder (order folder) found := by
  have hdepth : ∀ x ∈ d.entries, x.1.length ≤ folder.length + (d.entries.map Prod.fst).flatten.length := by
    intro x hx
    have hle := (List.sublist_flatten_of_mem (List.mem_map_of_mem (f := Prod.fst) hx)).length_le
    omega
  exact exists_visits_of_depth horder recursive hdepth fun name => ((horder folder).2 name).mp

/-! ### Expansion -/

/-- The files that a pattern finds in a folder, as the disk has them. -/
def matching (d : Disk) (folder : Path) (wildcard : Text) : List Path :=
  (d.filesIn folder (isRecursive wildcard)).filter fun p => Wildcard.isMatch wildcard (relativeText folder p)

theorem exists_of_mem_matching (hd : d.IsSimple) (h : p ∈ d.matching folder wildcard) :
    ∃ rel content, rel ≠ [] ∧ p = folder ++ rel ∧ d.get? p = some (.file content) ∧
      Wildcard.isMatch wildcard (relativeText folder p) = true := by
  obtain ⟨hp, hmatch⟩ := List.mem_filter.mp h
  obtain ⟨name, ⟨content, hfile⟩, rel, rfl, -⟩ := (mem_filesIn_iff_holdsFile hd).mp hp
  exact ⟨name :: rel, content, List.cons_ne_nil name rel, by simp, hfile, hmatch⟩

/-- A pattern gives what it finds in its folder, in ascending order. -/
theorem eq_sort_of_expand (hd : d.IsTree) (hsimple : d.IsSimple) (hpattern : Wildcard.isIn pattern = true)
    (hdivide : divide pattern = (literal, wildcard)) (hfolder : (d.working.follow base).follow literal = folder)
    (h : d.expand base pattern = .ok files) : files = Text.sort ((d.matching folder wildcard).map Path.text) := by
  subst hfolder
  unfold expand at h
  simp only [hpattern, hdivide, if_true] at h
  split at h
  · next hnone =>
    have hnil : d.matching ((d.working.follow base).follow literal) wildcard = [] := by
      apply List.eq_nil_iff_forall_not_mem.mpr
      intro p hp
      obtain ⟨rel, content, hrel, rfl, hfile, -⟩ := exists_of_mem_matching hsimple hp
      rw [hd.get?_folder hrel hfile] at hnone
      cases hnone
    obtain rfl := Except.ok.inj h
    rw [hnil, List.map_nil, Text.sort, List.mergeSort_nil]
  · cases h
  · exact (Except.ok.inj h).symm

/-- A path text without wildcards gives at most the file that it names. -/
theorem eq_of_expand_of_not_isIn (hpattern : Wildcard.isIn pattern = false) (h : d.expand base pattern = .ok files) :
    files = [] ∨ ∃ content, d.get? ((d.working.follow base).follow pattern) = some (.file content) ∧
      files = [((d.working.follow base).follow pattern).text] := by
  unfold expand at h
  simp only [hpattern, Bool.false_eq_true, if_false] at h
  split at h
  · next content hget => exact .inr ⟨content, hget, (Except.ok.inj h).symm⟩
  · exact .inl (Except.ok.inj h).symm

theorem nodup_map_text_matching (hd : d.IsTree) (hsimple : d.IsSimple) (folder : Path) (wildcard : Text) :
    ((d.matching folder wildcard).map Path.text).Nodup := by
  have hproper : ∀ p ∈ d.matching folder wildcard, p.IsProper := by
    intro p hp
    obtain ⟨rel, content, hrel, rfl, hfile, -⟩ := exists_of_mem_matching hsimple hp
    exact hd.isProper _ (mem_entries_of_get? (by simp [hrel]) hfile)
  refine List.Nodup.map_on ?_ ((nodup_filesIn hsimple _ _).filter _)
  intro p hp q hq htext
  exact Path.text_injective (hproper p hp) (hproper q hq) htext

theorem matching_perm (h : d'.entries.Perm d.entries) (folder : Path) (wildcard : Text) :
    (d'.matching folder wildcard).Perm (d.matching folder wildcard) :=
  (h.filterMap _).filter _

/-- What expansion gives does not depend on the order of the entries. -/
theorem expand_eq_of_perm (hd : d.IsSimple) {entries : List (Path × Entry)} (h : entries.Perm d.entries)
    (base pattern : Text) : expand ⟨entries, d.working⟩ base pattern = d.expand base pattern := by
  have hget (p : Path) : get? ⟨entries, d.working⟩ p = d.get? p := get?_eq_of_perm hd h p
  have hsort (folder : Path) (wildcard : Text) :
      Text.sort ((matching ⟨entries, d.working⟩ folder wildcard).map Path.text) =
        Text.sort ((d.matching folder wildcard).map Path.text) :=
    Text.sort_eq_of_perm ((matching_perm h folder wildcard).map Path.text)
  unfold Text.sort matching at hsort
  unfold expand
  simp only [hget, hsort]

/-- The text of a place leads to what is there. -/
theorem IsTree.find_text (hd : d.IsTree) (hp : p ≠ []) (h : d.get? p = some e) : d.find p.text = .ok e := by
  have hproper := hd.isProper _ (mem_entries_of_get? hp h)
  have hleads : d.Leads [] p := by
    rintro front ⟨rel, rfl⟩ hne
    exact hd.get?_folder (by rintro rfl; simp at hne) h
  have hwalk : d.walk [] p = .ok p := (walk_eq_ok_iff hproper).mpr ⟨rfl, hleads⟩
  unfold find
  rw [if_neg (Path.text_ne_nil p), Path.startOf_text, Path.names_text_of_isProper hproper hp, walk_nil_cons, hwalk]
  simp only [bind, Except.bind, h]

/-- What a pattern gives is what a walk meets and the pattern matches. -/
theorem perm_of_visits (hd : d.IsTree) (hsimple : d.IsSimple) (horder : ∀ folder, d.Lists folder (order folder))
    (h : Visits d (isRecursive wildcard) order folder (order folder) found) :
    (Text.sort ((d.matching folder wildcard).map Path.text)).Perm
      ((found.filter fun p => Wildcard.isMatch wildcard (relativeText folder p)).map Path.text) := by
  have hmatching := (h.perm_filesIn hd hsimple horder).filter fun p => Wildcard.isMatch wildcard (relativeText folder p)
  exact (Text.sort_perm _).trans (hmatching.map Path.text).symm

theorem pairwise_lt_of_expand (hd : d.IsTree) (hsimple : d.IsSimple) (h : d.expand base pattern = .ok files) :
    files.Pairwise (· < ·) := by
  cases hpattern : Wildcard.isIn pattern with
  | false =>
      obtain rfl | ⟨-, -, rfl⟩ := eq_of_expand_of_not_isIn hpattern h
      · exact .nil
      · exact List.pairwise_singleton _ _
  | true =>
      rw [eq_sort_of_expand hd hsimple hpattern rfl rfl h]
      exact Text.pairwise_lt_sort (nodup_map_text_matching hd hsimple _ _)

theorem find_of_mem_expand (hd : d.IsTree) (hsimple : d.IsSimple) (h : d.expand base pattern = .ok files) {t : Text}
    (ht : t ∈ files) : Path.isAbsolute t = true ∧ ∃ content, d.find t = .ok (.file content) := by
  obtain ⟨p, content, rfl, hfile⟩ : ∃ p content, t = Path.text p ∧ d.get? p = some (.file content) := by
    cases hpattern : Wildcard.isIn pattern with
    | false =>
        obtain rfl | ⟨content, hget, rfl⟩ := eq_of_expand_of_not_isIn hpattern h
        · cases ht
        · exact ⟨_, content, List.mem_singleton.mp ht, hget⟩
    | true =>
        rw [eq_sort_of_expand hd hsimple hpattern rfl rfl h, (Text.sort_perm _).mem_iff, List.mem_map] at ht
        obtain ⟨p, hp, rfl⟩ := ht
        obtain ⟨-, content, -, -, hfile, -⟩ := exists_of_mem_matching hsimple hp
        exact ⟨p, content, rfl, hfile⟩
  refine ⟨Path.isAbsolute_text p, content, hd.find_text ?_ hfile⟩
  rintro rfl
  rw [get?_nil] at hfile
  cases hfile

/-- **Expansion gives the files of a pattern in ascending order, in whatever order folders list their places.**  On a
disk that is a tree, let a pattern be expanded.  What it gives ascends strictly, by code units, and each text leads to
a file from the root.

A path text without wildcards gives at most the file that it names.  A pattern with wildcards is split at its first name
that has one.  It gives files below the folder that the names in front lead to, and if this is not the root, the rest of
the pattern matches their paths from there, with backslashes read as slashes.  Let each folder list its places in some
order, each once.  Then a walk from the folder comes to an end, and it meets, of the files that the pattern matches,
exactly those given, each once.  The order of the entries of the disk does not matter either. -/
theorem expand_ascending (d : Disk) (hd : d.IsTree) (hsimple : d.IsSimple) (base pattern : Text) (files : List Text)
    (h : d.expand base pattern = .ok files) :
    files.Pairwise (· < ·) ∧
    (∀ t ∈ files, Path.isAbsolute t = true ∧ ∃ content, d.find t = .ok (.file content)) ∧
    (Wildcard.isIn pattern = false → files = [] ∨ files = [((d.working.follow base).follow pattern).text]) ∧
    (Wildcard.isIn pattern = true → ∀ literal wildcard folder, divide pattern = (literal, wildcard) →
      (d.working.follow base).follow literal = folder →
      Splits pattern literal wildcard ∧
      (∀ t ∈ files, ∃ rel, rel ≠ [] ∧ t = Path.text (folder ++ rel) ∧ (folder ≠ [] →
        Wildcard.isMatch wildcard ((Path.join rel).map fun u => if u = unit '\\' then unit '/' else u) = true)) ∧
      ∀ order, (∀ place, d.Lists place (order place)) →
        (∃ found, Visits d (isRecursive wildcard) order folder (order folder) found) ∧
        ∀ found, Visits d (isRecursive wildcard) order folder (order folder) found →
          files.Perm ((found.filter fun p => Wildcard.isMatch wildcard (relativeText folder p)).map Path.text)) ∧
    ∀ entries, entries.Perm d.entries → expand ⟨entries, d.working⟩ base pattern = .ok files := by
  refine ⟨pairwise_lt_of_expand hd hsimple h, fun t ht => find_of_mem_expand hd hsimple h ht, ?_, ?_, ?_⟩
  · intro hpattern
    exact (eq_of_expand_of_not_isIn hpattern h).imp_right fun ⟨_, _, hfiles⟩ => hfiles
  · intro hpattern literal wildcard folder hdivide hfolder
    obtain rfl := eq_sort_of_expand hd hsimple hpattern hdivide hfolder h
    refine ⟨splits_of_divide hpattern hdivide, ?_, ?_⟩
    · intro t ht
      rw [(Text.sort_perm _).mem_iff, List.mem_map] at ht
      obtain ⟨p, hp, rfl⟩ := ht
      obtain ⟨rel, -, hrel, rfl, -, hmatch⟩ := exists_of_mem_matching hsimple hp
      refine ⟨rel, hrel, rfl, ?_⟩
      intro hroot
      rwa [relativeText_append hrel, if_neg hroot, List.drop_zero] at hmatch
    · intro order horder
      exact ⟨exists_visits horder _ folder, fun found hfound => perm_of_visits hd hsimple horder hfound⟩
  · intro entries hentries
    exact (expand_eq_of_perm hsimple hentries base pattern).trans h

/-- Files that the disk has in descending order; the names in each folder are listed in that order. -/
theorem expand_ascending_reversed :
    let here := [lit "v", lit "work"]
    let d := ((ofFolder here).addFile (here ++ [lit "x", lit "y", lit "b.svg"]) []).addFile (here ++ [lit "a.svg"]) []
    let files := [lit "/v/work/a.svg", lit "/v/work/x/y/b.svg"]
    d.IsTree ∧ d.IsSimple ∧ d.expand (lit ".") (lit "**/*.svg") = .ok files ∧ files.Pairwise (· < ·) ∧
      expand ⟨d.entries.reverse, d.working⟩ (lit ".") (lit "**/*.svg") = .ok files ∧
      ∃ found, Visits d true d.namesIn here (d.namesIn here) found ∧
        files.Perm ((found.filter fun p => Wildcard.isMatch (lit "**/*.svg") (relativeText here p)).map Path.text) := by
  intro here d files
  have hd : d.IsTree := by decide +kernel
  have hsimple : d.IsSimple := by decide +kernel
  have hpattern : Wildcard.isIn (lit "**/*.svg") = true := by decide +kernel
  have hdivide : divide (lit "**/*.svg") = ([], lit "**/*.svg") := by decide +kernel
  have hhere : (d.working.follow (lit ".")).follow [] = here := by decide +kernel
  have hexpand : d.expand (lit ".") (lit "**/*.svg") = .ok files := by
    obtain ⟨files', hfiles', -⟩ := expand_of_folder hpattern hdivide hhere (by decide +kernel)
    have hmatching : (d.matching here (lit "**/*.svg")).map Path.text = files.reverse := by decide +kernel
    rw [hfiles', eq_sort_of_expand hd hsimple hpattern hdivide hhere hfiles', hmatching]
    exact congrArg _ (Text.sort_eq (List.reverse_perm files) (by decide +kernel))
  obtain ⟨hlt, -, -, hwalk, hperm⟩ := expand_ascending d hd hsimple _ _ _ hexpand
  obtain ⟨-, -, hwalk⟩ := hwalk hpattern _ _ _ hdivide hhere
  obtain ⟨⟨found, hfound⟩, hfiles⟩ := hwalk d.namesIn (lists_namesIn hsimple)
  exact ⟨hd, hsimple, hexpand, hlt, hperm _ (List.reverse_perm _), found, hfound, hfiles found hfound⟩

end Disk
end Pictogram
