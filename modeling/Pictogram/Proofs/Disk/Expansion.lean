import Mathlib.Data.List.TakeWhile
import Pictogram.Disk.Expand
import Pictogram.Proofs.Disk.Matching
import Pictogram.Proofs.Disk.Writing

/-! # Which files a pattern finds

A pattern is split in front of its first name with a wildcard (`Disk.Splits`).  Of the files below the folder that the
names before it lead to, the pattern finds those that the rest matches, if the rest holds `**` or the file stands
directly in the folder (`mem_expand_iff`).

A rest without `**` matches a text with slashes only if it has some itself (`mem_slash_iff_of_isMatch`).  So the files
that are matched and not found are those of a rest that has several names and no `**`. -/

namespace Pictogram

/-! ### Slashes in what is matched -/

namespace Wildcard

theorem mem_slash_iff_of_accepts {u : CodeUnit} {t : Text} (h : (Piece.ofUnit u).Accepts t) :
    unit '/' ∈ t ↔ unit '/' = u := by
  unfold Piece.ofUnit at h
  split at h
  · next hu =>
    rw [hu]
    exact iff_of_false h (by decide)
  · split at h
    · next hu =>
      obtain ⟨v, hv, rfl⟩ := h
      rw [hu, List.mem_singleton]
      exact iff_of_false hv.symm (by decide)
    · obtain rfl := h
      exact List.mem_singleton

theorem mem_slash_flatten_iff {pattern : Text} {parts : List Text}
    (h : List.Forall₂ Piece.Accepts (pattern.map Piece.ofUnit) parts) :
    unit '/' ∈ parts.flatten ↔ unit '/' ∈ pattern := by
  induction pattern generalizing parts with
  | nil =>
      cases h
      simp
  | cons u pattern ih =>
      cases h with
      | cons hpart hparts =>
          rw [List.flatten_cons, List.mem_append, List.mem_cons, mem_slash_iff_of_accepts hpart, ih hparts]

/-- Without `**`, a slash is matched by a slash only. -/
theorem mem_slash_iff_of_isMatch {pattern t : Text} (hstars : ¬ lit "**" <:+: pattern)
    (hfolders : ¬ lit "<<<GLOBSTAR_DIR>>>" <:+: pattern) (hanything : ¬ lit "<<<GLOBSTAR>>>" <:+: pattern)
    (h : isMatch pattern t = true) : unit '/' ∈ t ↔ unit '/' ∈ pattern := by
  have hslash : ¬ lit "**/" <:+: pattern := mt (List.IsInfix.trans ⟨[], lit "/", rfl⟩) hstars
  have hitems : Itemizes pattern (pattern.map Piece.ofUnit) := .last hslash (.last hstars rfl)
  obtain ⟨parts, hparts, rfl⟩ := isMatch_iff_pieces.mp h
  rw [← (itemizes_iff hfolders hanything).mp hitems] at hparts
  exact mem_slash_flatten_iff hparts

end Wildcard

namespace Path

theorem mem_slash_join_iff {p : Path} (h : p.IsProper) : unit '/' ∈ join p ↔ 1 < p.length := by
  match p with
  | [] => decide
  | [name] => simpa using (isProper_cons.mp h).1.2.2.2
  | name :: next :: p => simp [join_cons_cons]

/-- A unit other than a slash stands in one of the names. -/
theorem exists_mem_names {u : CodeUnit} {t : Text} (hu : u ∈ t) (hslash : isSlash u = false) :
    ∃ name ∈ names t, u ∈ name := by
  unfold names
  induction t with
  | nil => cases hu
  | cons v t ih =>
      unfold Text.splitOn
      split
      · next hv =>
        have htail : u ∈ t := by
          rcases List.mem_cons.mp hu with rfl | htail
          · exact absurd hv (Bool.eq_false_iff.mp hslash)
          · exact htail
        obtain ⟨name, hname, hmem⟩ := ih htail
        exact ⟨name, List.mem_cons_of_mem [] hname, hmem⟩
      · rcases List.mem_cons.mp hu with rfl | htail
        · split <;> exact ⟨_, List.mem_cons_self, List.mem_cons_self⟩
        · obtain ⟨name, hname, hmem⟩ := ih htail
          split
          · next hsplit =>
            rw [hsplit] at hname
            cases hname
          · next piece pieces hsplit =>
            rw [hsplit] at hname
            rcases List.mem_cons.mp hname with rfl | hname
            · exact ⟨v :: name, List.mem_cons_self, List.mem_cons_of_mem v hmem⟩
            · exact ⟨name, List.mem_cons_of_mem _ hname, hmem⟩

theorem text_injective {p q : Path} (hp : p.IsProper) (hq : q.IsProper) (h : p.text = q.text) : p = q := by
  rw [← follow_text hp [], h, follow_text hq]

end Path

namespace Disk

variable {d : Disk} {folder rel p : Path} {base pattern literal wildcard : Text} {content : Bytes}

/-! ### Disks that are trees -/

/-- A disk whose places have plain names and stand in folders. -/
structure IsTree (d : Disk) : Prop where
  isProper : ∀ x ∈ d.entries, x.1.IsProper
  inFolder : ∀ x ∈ d.entries, d.get? x.1.dropLast = some .folder

instance (d : Disk) : Decidable d.IsTree := decidable_of_iff (_ ∧ _) ⟨fun h => ⟨h.1, h.2⟩, fun h => ⟨h.1, h.2⟩⟩

theorem mem_entries_of_get? {e : Entry} (hp : p ≠ []) (h : d.get? p = some e) : (p, e) ∈ d.entries := by
  rw [get?, if_neg hp] at h
  obtain ⟨before, behind, hentries, -⟩ := List.lookup_eq_some_iff.mp h
  simp [hentries]

/-- What a place stands below is a folder. -/
theorem IsTree.get?_folder (hd : d.IsTree) (hrel : rel ≠ []) {e : Entry} (h : d.get? (folder ++ rel) = some e) :
    d.get? folder = some .folder := by
  induction rel using List.reverseRecOn generalizing e with
  | nil => exact absurd rfl hrel
  | append_singleton rel name ih =>
      have hmem := mem_entries_of_get? (by simp) h
      have hfolder := hd.inFolder _ hmem
      rw [← List.append_assoc, List.dropLast_concat] at hfolder
      by_cases hnil : rel = []
      · rwa [hnil, List.append_nil] at hfolder
      · exact ih hnil hfolder

/-! ### Splitting a pattern -/

/-- A pattern is split in front of its first name with a wildcard. -/
def Splits (pattern literal wildcard : Text) : Prop :=
  ∃ front name behind, Path.names pattern = front ++ name :: behind ∧ (∀ n ∈ front, Wildcard.isIn n = false) ∧
    Wildcard.isIn name = true ∧ literal = Path.join front ∧ wildcard = Path.join (name :: behind)

theorem exists_isIn_names (h : Wildcard.isIn pattern = true) : ∃ name ∈ Path.names pattern, Wildcard.isIn name = true := by
  simp only [Wildcard.isIn, Bool.or_eq_true, List.contains_iff_mem] at h ⊢
  rcases h with h | h
  · obtain ⟨name, hname, hmem⟩ := Path.exists_mem_names h (by decide)
    exact ⟨name, hname, .inl hmem⟩
  · obtain ⟨name, hname, hmem⟩ := Path.exists_mem_names h (by decide)
    exact ⟨name, hname, .inr hmem⟩

theorem splits_of_divide (h : Wildcard.isIn pattern = true) (hdivide : divide pattern = (literal, wildcard)) :
    Splits pattern literal wildcard := by
  obtain ⟨rfl, rfl⟩ := Prod.mk.inj hdivide
  obtain ⟨name, hname, hisIn⟩ := exists_isIn_names h
  have hne : (Path.names pattern).dropWhile (! Wildcard.isIn ·) ≠ [] := by
    intro hnil
    simpa [hisIn] using List.dropWhile_eq_nil_iff.mp hnil name hname
  obtain ⟨first, behind, hdrop⟩ := List.exists_cons_of_ne_nil hne
  refine ⟨(Path.names pattern).takeWhile (! Wildcard.isIn ·), first, behind, ?_, ?_, ?_, rfl, ?_⟩
  · rw [← hdrop, List.takeWhile_append_dropWhile]
  · intro n hn
    simpa using List.mem_takeWhile_imp hn
  · have hfirst := List.head_dropWhile_not (! Wildcard.isIn ·) hne
    simpa [hdrop] using hfirst
  · rw [hdrop]

/-! ### The files found -/

theorem isRecursive_iff : isRecursive wildcard = true ↔ lit "**" <:+: wildcard := by
  rw [isRecursive, Option.isSome_iff_ne_none, ne_eq, Text.offsetOf?_eq_none_iff (by decide), not_not]

theorem mem_filesIn_iff {recursive : Bool} :
    p ∈ d.filesIn folder recursive ↔ (∃ content, (p, .file content) ∈ d.entries) ∧ folder <+: p ∧
      (folder.length + 1 = p.length ∨ recursive = true ∧ folder.length < p.length) := by
  unfold filesIn
  rw [List.mem_filterMap]
  constructor
  · rintro ⟨⟨q, e⟩, hmem, hq⟩
    cases e with
    | folder => cases hq
    | file content =>
        simp only [Option.ite_none_right_eq_some, Bool.and_eq_true, Bool.or_eq_true, decide_eq_true_eq,
          List.isPrefixOf_iff_prefix, Option.some.injEq] at hq
        obtain ⟨hbelow, rfl⟩ := hq
        exact ⟨⟨content, hmem⟩, hbelow⟩
  · rintro ⟨⟨content, hmem⟩, hbelow⟩
    refine ⟨(p, .file content), hmem, ?_⟩
    simpa only [Option.ite_none_right_eq_some, Bool.and_eq_true, Bool.or_eq_true, decide_eq_true_eq,
      List.isPrefixOf_iff_prefix, Option.some.injEq, and_true] using hbelow

/-- The text of a file that is matched: the names below the folder, of which the root takes a unit. -/
theorem relativeText_append (hrel : rel ≠ []) :
    relativeText folder (folder ++ rel) =
      ((Path.join rel).drop (if folder = [] then 1 else 0)).map fun u => if u = unit '\\' then unit '/' else u := by
  unfold relativeText
  congr 1
  split
  · next hroot =>
    subst hroot
    rfl
  · next hroot =>
    rw [Path.text_append hroot hrel, List.drop_length_add_append]
    rfl

theorem relativeText_append_eq_join (hroot : folder ≠ []) (hrel : rel ≠ []) (hbackslash : unit '\\' ∉ Path.join rel) :
    relativeText folder (folder ++ rel) = Path.join rel := by
  have hsame : ∀ u ∈ Path.join rel, (if u = unit '\\' then unit '/' else u) = id u := by
    intro u hu
    apply if_neg
    rintro rfl
    exact hbackslash hu
  rw [relativeText_append hrel, if_neg hroot, List.drop_zero, List.map_congr_left hsame, List.map_id]

theorem expand_of_folder (hpattern : Wildcard.isIn pattern = true) (hdivide : divide pattern = (literal, wildcard))
    (hfolder : (d.working.follow base).follow literal = folder) (h : d.get? folder = some .folder) :
    ∃ files, d.expand base pattern = .ok files ∧
      ∀ t, t ∈ files ↔ ∃ p ∈ d.filesIn folder (isRecursive wildcard),
        Wildcard.isMatch wildcard (relativeText folder p) = true ∧ p.text = t := by
  subst hfolder
  unfold expand
  simp only [hpattern, hdivide, h, if_true]
  refine ⟨_, rfl, ?_⟩
  intro t
  simp only [List.mem_mergeSort, List.mem_map, List.mem_filter, and_assoc]

/-- A file below the folder of a pattern is found if it is reached and matched. -/
theorem exists_mem_expand_iff (hd : d.IsTree) (hpattern : Wildcard.isIn pattern = true)
    (hdivide : divide pattern = (literal, wildcard)) (hfolder : (d.working.follow base).follow literal = folder)
    (hrel : rel ≠ []) (hfile : d.get? (folder ++ rel) = some (.file content)) :
    ∃ files, d.expand base pattern = .ok files ∧
      (Path.text (folder ++ rel) ∈ files ↔ (lit "**" <:+: wildcard ∨ rel.length = 1) ∧
        Wildcard.isMatch wildcard (relativeText folder (folder ++ rel)) = true) := by
  obtain ⟨files, hfiles, hmem⟩ := expand_of_folder hpattern hdivide hfolder (hd.get?_folder hrel hfile)
  have hentry : (folder ++ rel, .file content) ∈ d.entries := mem_entries_of_get? (by simp [hrel]) hfile
  have hlength := List.length_pos_iff.mpr hrel
  refine ⟨files, hfiles, ?_⟩
  rw [hmem]
  constructor
  · rintro ⟨p, hp, hmatch, htext⟩
    obtain ⟨⟨content', hentry'⟩, -, hreach⟩ := mem_filesIn_iff.mp hp
    obtain rfl := Path.text_injective (hd.isProper _ hentry') (hd.isProper _ hentry) htext
    rw [List.length_append, isRecursive_iff] at hreach
    refine ⟨?_, hmatch⟩
    rcases hreach with hdirect | hrec
    · exact .inr (by omega)
    · exact .inl hrec.1
  · rintro ⟨hreach, hmatch⟩
    refine ⟨folder ++ rel, mem_filesIn_iff.mpr ⟨⟨content, hentry⟩, List.prefix_append _ _, ?_⟩, hmatch, rfl⟩
    rw [List.length_append, isRecursive_iff]
    rcases hreach with hrec | hdirect
    · exact .inr ⟨hrec, by omega⟩
    · exact .inl (by omega)

/-- A path that is matched without `**` has one name exactly if the pattern is a single name. -/
theorem length_eq_one_iff_of_isMatch (hproper : rel.IsProper) (hrel : rel ≠ []) (hstars : ¬ lit "**" <:+: wildcard)
    (hfolders : ¬ lit "<<<GLOBSTAR_DIR>>>" <:+: wildcard) (hanything : ¬ lit "<<<GLOBSTAR>>>" <:+: wildcard)
    (hmatch : Wildcard.isMatch wildcard (Path.join rel) = true) : rel.length = 1 ↔ unit '/' ∉ wildcard := by
  have hlength := List.length_pos_iff.mpr hrel
  rw [← Wildcard.mem_slash_iff_of_isMatch hstars hfolders hanything hmatch, Path.mem_slash_join_iff hproper]
  omega

/-- **Expansion finds what is matched, if the pattern reaches it.**  A pattern with a wildcard is split at its first
name that holds one.  A file anywhere below the folder is found exactly if the text by which it is seen from there is
matched and the pattern holds `**` or the file stands directly in the folder.

Let the folder not be the root, and no name hold a backslash.  Then a file whose path from the folder is matched is
found exactly if the rest of the pattern holds `**` or is a single name. -/
theorem mem_expand_iff (d : Disk) (hd : d.IsTree) (base pattern literal wildcard : Text)
    (hpattern : Wildcard.isIn pattern = true) (hdivide : divide pattern = (literal, wildcard)) :
    Splits pattern literal wildcard ∧
      ∀ (folder rel : Path) (content : Bytes), (d.working.follow base).follow literal = folder → rel ≠ [] →
        d.get? (folder ++ rel) = some (.file content) →
        ∃ files, d.expand base pattern = .ok files ∧
          (Path.text (folder ++ rel) ∈ files ↔ (lit "**" <:+: wildcard ∨ rel.length = 1) ∧
            Wildcard.isMatch wildcard (((Path.join rel).drop (if folder = [] then 1 else 0)).map
              fun u => if u = unit '\\' then unit '/' else u) = true) ∧
          (folder ≠ [] → unit '\\' ∉ Path.join rel → Wildcard.isMatch wildcard (Path.join rel) = true →
            ¬ lit "<<<GLOBSTAR_DIR>>>" <:+: wildcard → ¬ lit "<<<GLOBSTAR>>>" <:+: wildcard →
            (Path.text (folder ++ rel) ∈ files ↔ lit "**" <:+: wildcard ∨ unit '/' ∉ wildcard)) := by
  refine ⟨splits_of_divide hpattern hdivide, ?_⟩
  intro folder rel content hfolder hrel hfile
  obtain ⟨files, hfiles, hmem⟩ := exists_mem_expand_iff hd hpattern hdivide hfolder hrel hfile
  refine ⟨files, hfiles, relativeText_append hrel ▸ hmem, ?_⟩
  intro hroot hbackslash hmatch hfolders hanything
  rw [hmem, relativeText_append_eq_join hroot hrel hbackslash, and_iff_left hmatch]
  by_cases hstars : lit "**" <:+: wildcard
  · exact iff_of_true (.inl hstars) (.inl hstars)
  · have hproper := hd.isProper _ (mem_entries_of_get? (by simp [hrel]) hfile)
    rw [length_eq_one_iff_of_isMatch (Path.isProper_append.mp hproper).2 hrel hstars hfolders hanything hmatch]

/-- A file two folders down, below a folder that the pattern names. -/
theorem mem_expand_iff_nested :
    let here := [lit "v", lit "work"]
    let d := ((ofFolder here).addFile (here ++ [lit "icons", lit "x", lit "y", lit "c.svg"]) []).addFile
      (here ++ [lit "icons", lit "notes.txt"]) []
    let pattern := lit "icons/**/?.svg"
    d.IsTree ∧ Wildcard.isIn pattern = true ∧ divide pattern = (lit "icons", lit "**/?.svg") ∧
      ∃ files, d.expand (lit ".") pattern = .ok files ∧ lit "/v/work/icons/x/y/c.svg" ∈ files := by
  intro here d pattern
  have hd : d.IsTree := by decide +kernel
  have hpattern : Wildcard.isIn pattern = true := by decide +kernel
  have hdivide : divide pattern = (lit "icons", lit "**/?.svg") := by decide +kernel
  obtain ⟨-, hfiles⟩ := mem_expand_iff d hd (lit ".") pattern _ _ hpattern hdivide
  obtain ⟨files, hfiles, -, hfound⟩ := hfiles (here ++ [lit "icons"]) [lit "x", lit "y", lit "c.svg"] []
    (by decide +kernel) (by decide +kernel) (by decide +kernel)
  refine ⟨hd, hpattern, hdivide, files, hfiles, ?_⟩
  exact (hfound (by decide +kernel) (by decide +kernel) (by decide +kernel) (by decide +kernel) (by decide +kernel)).mpr
    (.inl (by decide +kernel))

/-- A pattern that asks for any folder does not look into one. -/
theorem expand_any_folder :
    let here := [lit "v", lit "work"]
    let d := (ofFolder here).addFile (here ++ [lit "sub", lit "a.svg"]) []
    d.IsTree ∧ d.get? (here ++ [lit "sub", lit "a.svg"]) = some (.file []) ∧
      Wildcard.isMatch (lit "*/a.svg") (lit "sub/a.svg") = true ∧ d.expand (lit ".") (lit "*/a.svg") = .ok [] := by
  decide +kernel

end Disk

end Pictogram
