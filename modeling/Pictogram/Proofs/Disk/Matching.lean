import Mathlib.Data.List.Forall2
import Mathlib.Logic.ExistsUnique
import Pictogram.Disk.Wildcard
import Pictogram.Proofs.Text.Search

/-! # What a wildcard pattern matches

A pattern is cut at each leftmost `**/`, what remains is cut at each leftmost `**`, and what remains then is read unit
by unit (`Itemizes`).  This gives exactly one list of pieces, the one that the passes over the pattern find, unless the
pattern holds one of the words that spell out `**/` and `**` (`itemizes_iff`).

A piece accepts certain texts (`Piece.Accepts`), and what the matcher keeps is what can be left behind such texts
(`mem_restsAfter_iff`).  So a pattern matches the texts that are made of parts accepted by its pieces in order. -/

namespace Pictogram
namespace Wildcard

/-! ### The pieces of a pattern -/

/-- The piece for a unit by itself. -/
def Piece.ofUnit (u : CodeUnit) : Piece :=
  if u = unit '*' then .name else if u = unit '?' then .one else .exactly u

/-- A pattern with `piece` for each leftmost `stop`, and the parts between read by `Reads`. -/
inductive Cut (stop : Text) (piece : Piece) (Reads : Text → List Piece → Prop) : Text → List Piece → Prop
  | last {t : Text} {ps : List Piece} : ¬ stop <:+: t → Reads t ps → Cut stop piece Reads t ps
  | cons {front t : Text} {ps qs : List Piece} :
      Text.EndsFirst stop (front ++ stop) → Reads front ps → Cut stop piece Reads t qs →
      Cut stop piece Reads (front ++ (stop ++ t)) (ps ++ piece :: qs)

/-- The pieces of a pattern, by cuts. -/
def Itemizes : Text → List Piece → Prop :=
  Cut (lit "**/") .folders (Cut (lit "**") .anything fun t ps => ps = t.map Piece.ofUnit)

section Cut

variable {stop t : Text} {piece : Piece} {Reads : Text → List Piece → Prop} {ps qs : List Piece}

theorem Cut.unique (hReads : ∀ {t ps qs}, Reads t ps → Reads t qs → ps = qs) (h : Cut stop piece Reads t ps)
    (h' : Cut stop piece Reads t qs) : ps = qs := by
  induction h generalizing qs with
  | last hno hr =>
      cases h' with
      | last _ hr' => exact hReads hr hr'
      | cons => exact absurd ⟨_, _, List.append_assoc _ _ _⟩ hno
  | @cons front t _ _ hends hr _ ih =>
      generalize ht : front ++ (stop ++ t) = whole at h'
      cases h' with
      | last hno => exact absurd ⟨front, t, (List.append_assoc _ _ _).trans ht⟩ hno
      | cons hends' hr' h' =>
          obtain ⟨rfl, rfl⟩ := hends.append_inj hends' ht
          rw [hReads hr hr', ih h']

end Cut

/-- A pattern is read in one way only. -/
theorem Itemizes.unique {pattern : Text} {ps qs : List Piece} (h : Itemizes pattern ps) (h' : Itemizes pattern qs) :
    ps = qs := by
  refine Cut.unique ?_ h h'
  intro t ps qs
  apply Cut.unique
  rintro t ps qs rfl rfl
  rfl

/-! ### Passes -/

section Pass

variable {spelling front : Text} {piece q : Piece} {ps qs ws : List Piece}

theorem exactly_injective : Function.Injective Piece.exactly := fun _ _ h => Piece.exactly.inj h

theorem infix_of_map_exactly {w t : Text} (h : w.map Piece.exactly <:+: t.map .exactly) : w <:+: t := by
  obtain ⟨before, behind, heq⟩ := h
  obtain ⟨front, rest, rfl, hfront, -⟩ := List.map_eq_append_iff.mp heq.symm
  obtain ⟨start, w', rfl, -, hw⟩ := List.map_eq_append_iff.mp hfront
  rw [← List.map_injective_iff.mpr exactly_injective hw]
  exact ⟨start, rest, rfl⟩

theorem pass_of_isPrefix {p : Piece} (h : spelling.map .exactly <+: p :: ps) :
    pass spelling piece 0 (p :: ps) = piece :: pass spelling piece (spelling.length - 1) ps :=
  if_pos (List.isPrefixOf_iff_prefix.mpr h)

theorem pass_of_not_isPrefix {p : Piece} (h : ¬ spelling.map .exactly <+: p :: ps) :
    pass spelling piece 0 (p :: ps) = p :: pass spelling piece 0 ps :=
  if_neg (mt List.isPrefixOf_iff_prefix.mp h)

theorem pass_length_append (ws ps : List Piece) :
    pass spelling piece ws.length (ws ++ ps) = pass spelling piece 0 ps := by
  induction ws with
  | nil => rfl
  | cons w ws ih => exact ih

theorem pass_eq_self (h : ¬ spelling.map .exactly <:+: ps) : pass spelling piece 0 ps = ps := by
  induction ps with
  | nil => rfl
  | cons p ps ih =>
      rw [List.infix_cons_iff, not_or] at h
      rw [pass_of_not_isPrefix h.1, ih h.2]

/-- The first occurrence is replaced. -/
theorem pass_of_endsFirst (hspelling : spelling ≠ []) (h : Text.EndsFirst spelling (front ++ spelling)) :
    pass spelling piece 0 (front.map .exactly ++ (spelling.map .exactly ++ ps)) =
      front.map .exactly ++ piece :: pass spelling piece 0 ps := by
  induction front with
  | nil =>
      obtain ⟨u, t, rfl⟩ := List.exists_cons_of_ne_nil hspelling
      have hprefix : (u :: t).map Piece.exactly <+: .exactly u :: (t.map .exactly ++ ps) := List.prefix_append _ _
      have hskip : (u :: t).length - 1 = (t.map Piece.exactly).length := by simp
      rw [List.map_nil, List.nil_append, List.map_cons, List.cons_append, pass_of_isPrefix hprefix, hskip,
        pass_length_append, List.nil_append]
  | cons u front ih =>
      have hno : ¬ spelling.map Piece.exactly <+: .exactly u :: (front.map .exactly ++ (spelling.map .exactly ++ ps)) := by
        intro hprefix
        have hmap : spelling.map Piece.exactly <+: (u :: front ++ spelling).map .exactly := by
          apply List.prefix_of_prefix_length_le hprefix ⟨ps, by simp⟩
          simp only [List.length_map, List.length_append]
          omega
        exact h.not_prefix_cons ((List.prefix_map_iff_of_injective exactly_injective).mp hmap)
      rw [List.map_cons, List.cons_append, pass_of_not_isPrefix hno, ih h.of_cons, List.cons_append]

/-- A list that `q` is not in ends before `q`. -/
theorem prefix_append_cons_iff (hq : q ∉ ws) (ps qs : List Piece) : ws <+: ps ++ q :: qs ↔ ws <+: ps := by
  refine ⟨?_, fun h => h.trans (List.prefix_append ps _)⟩
  intro h
  rcases List.prefix_or_prefix_of_prefix h (List.prefix_append ps _) with hle | ⟨rest, rfl⟩
  · exact hle
  · rw [List.prefix_append_right_inj] at h
    cases rest with
    | nil => simp
    | cons r rest =>
        obtain ⟨rfl, -⟩ := List.cons_prefix_cons.mp h
        simp at hq

/-- A pass works on both sides of a piece that no spelling holds: what it finds ends before that piece. -/
theorem pass_append_cons (hspelling : spelling ≠ []) (hq : q ∉ spelling.map .exactly) {skip : Nat}
    (hskip : skip ≤ ps.length) :
    pass spelling piece skip (ps ++ q :: qs) = pass spelling piece skip ps ++ q :: pass spelling piece 0 qs := by
  induction ps generalizing skip with
  | nil =>
      obtain rfl : skip = 0 := Nat.le_zero.mp hskip
      rw [List.nil_append, pass_of_not_isPrefix]
      · rfl
      · intro h
        have hnil := (prefix_append_cons_iff hq [] qs).mp h
        exact hspelling (List.map_eq_nil_iff.mp (List.prefix_nil.mp hnil))
  | cons p ps ih =>
      cases skip with
      | succ skip => exact ih (Nat.le_of_succ_le_succ hskip)
      | zero =>
          by_cases h : spelling.map Piece.exactly <+: p :: ps
          · have hlength := h.length_le
            rw [List.length_map, List.length_cons] at hlength
            rw [pass_of_isPrefix h, List.cons_append, pass_of_isPrefix, ih (by omega), List.cons_append]
            exact (prefix_append_cons_iff hq (p :: ps) qs).mpr h
          · rw [pass_of_not_isPrefix h, List.cons_append, pass_of_not_isPrefix, ih (Nat.zero_le _), List.cons_append]
            exact mt (prefix_append_cons_iff hq (p :: ps) qs).mp h

/-- A pass for one unit looks at each piece by itself. -/
theorem pass_singleton (u : CodeUnit) :
    pass [u] piece 0 ps = ps.map fun p => if p = .exactly u then piece else p := by
  induction ps with
  | nil => rfl
  | cons p ps ih =>
      by_cases h : p = .exactly u
      · rw [pass_of_isPrefix (by simp [h]), List.map_cons, if_pos h, ← ih]
        rfl
      · rw [pass_of_not_isPrefix (by simpa [eq_comm] using h), List.map_cons, if_neg h, ih]

/-- A pass brings no two pieces together. -/
theorem prefix_of_prefix_pass (hpiece : piece ∉ ws) (h : ws <+: pass spelling piece 0 ps) : ws <+: ps := by
  induction ws generalizing ps with
  | nil => exact List.nil_prefix
  | cons w ws ih =>
      cases ps with
      | nil => exact h
      | cons p ps =>
          by_cases hp : spelling.map Piece.exactly <+: p :: ps
          · rw [pass_of_isPrefix hp, List.cons_prefix_cons] at h
            exact absurd (h.1 ▸ List.mem_cons_self) hpiece
          · rw [pass_of_not_isPrefix hp, List.cons_prefix_cons] at h
            exact List.cons_prefix_cons.mpr ⟨h.1, ih (fun hmem => hpiece (List.mem_cons_of_mem w hmem)) h.2⟩

theorem infix_of_infix_pass (hws : ws ≠ []) (hpiece : piece ∉ ws) {skip : Nat}
    (h : ws <:+: pass spelling piece skip ps) : ws <:+: ps := by
  fun_induction pass spelling piece skip ps with
  | case1 => exact h
  | case2 skip p ps ih => exact (ih h).trans (List.suffix_cons p ps).isInfix
  | case3 p ps _ ih =>
      rcases List.infix_cons_iff.mp h with hprefix | hinfix
      · obtain ⟨w, ws, rfl⟩ := List.exists_cons_of_ne_nil hws
        exact absurd ((List.cons_prefix_cons.mp hprefix).1 ▸ List.mem_cons_self) hpiece
      · exact (ih hinfix).trans (List.suffix_cons p ps).isInfix
  | case4 p ps hno ih =>
      rcases List.infix_cons_iff.mp h with hprefix | hinfix
      · rw [List.isPrefixOf_iff_prefix] at hno
        rw [← pass_of_not_isPrefix hno] at hprefix
        exact (prefix_of_prefix_pass hpiece hprefix).isInfix
      · exact (ih hinfix).trans (List.suffix_cons p ps).isInfix

end Pass

/-! ### The passes find the pieces -/

/-- The pieces of one unit, found among others. -/
def Piece.reread : Piece → Piece
  | exactly u => .ofUnit u
  | p => p

theorem pass_pass_singleton (ps : List Piece) :
    pass (lit "?") .one 0 (pass (lit "*") .name 0 ps) = ps.map Piece.reread := by
  rw [show lit "?" = [unit '?'] from rfl, show lit "*" = [unit '*'] from rfl, pass_singleton, pass_singleton, List.map_map]
  apply List.map_congr_left
  intro p _
  cases p with
  | exactly u =>
      simp only [Function.comp_apply, Piece.exactly.injEq, Piece.reread, Piece.ofUnit]
      split
      · rfl
      · simp only [Piece.exactly.injEq]
  | _ => rfl

/-- A pass makes a cut, also if later passes work on the parts. -/
theorem cut_pass {stop : Text} {piece : Piece} {Reads : Text → List Piece → Prop} (later : List Piece → List Piece)
    (hstop : stop ≠ []) (hlater : ∀ ps qs, later (ps ++ piece :: qs) = later ps ++ piece :: later qs)
    (hReads : ∀ t, Reads t (later (t.map .exactly))) (t : Text) :
    Cut stop piece Reads t (later (pass stop piece 0 (t.map .exactly))) := by
  by_cases h : stop <:+: t
  · obtain ⟨front, rest, rfl, hends⟩ := Text.exists_endsFirst hstop h
    have hshorter : rest.length < (front ++ (stop ++ rest)).length := by
      have := List.length_pos_iff.mpr hstop
      simp only [List.length_append]
      omega
    rw [List.map_append, List.map_append, pass_of_endsFirst hstop hends, hlater]
    exact .cons hends (hReads front) (cut_pass later hstop hlater hReads rest)
  · rw [pass_eq_self (mt infix_of_map_exactly h)]
    exact .last h (hReads t)
termination_by t.length

/-- What the passes before those for the words find. -/
def cutPieces (pattern : Text) : List Piece :=
  (pass (lit "**") .anything 0 (pass (lit "**/") .folders 0 (pattern.map .exactly))).map Piece.reread

theorem itemizes_cutPieces (pattern : Text) : Itemizes pattern (cutPieces pattern) := by
  apply cut_pass (fun ps => (pass (lit "**") .anything 0 ps).map Piece.reread) (by decide)
  · intro ps qs
    rw [pass_append_cons (by decide) (by decide) (Nat.zero_le _), List.map_append, List.map_cons]
    rfl
  · apply cut_pass (List.map Piece.reread) (by decide)
    · intro ps qs
      rw [List.map_append, List.map_cons]
      rfl
    · intro t
      rw [List.map_map]
      rfl

/-- No pass makes a word. -/
theorem infix_of_infix_cutPieces {pattern w : Text} (hw : w ≠ []) (h : w.map Piece.exactly <:+: cutPieces pattern) :
    w <:+: pattern := by
  have hne : w.map Piece.exactly ≠ [] := mt List.map_eq_nil_iff.mp hw
  rw [cutPieces, ← pass_pass_singleton] at h
  apply infix_of_map_exactly
  iterate 4 apply infix_of_infix_pass hne (by simp) at h
  exact h

theorem pieces_eq_pass (pattern : Text) : pieces pattern =
    pass (lit "<<<GLOBSTAR>>>") .anything 0 (pass (lit "<<<GLOBSTAR_DIR>>>") .folders 0 (cutPieces pattern)) := by
  rw [cutPieces, ← pass_pass_singleton]
  rfl

theorem pieces_eq_cutPieces {pattern : Text} (hfolders : ¬ lit "<<<GLOBSTAR_DIR>>>" <:+: pattern)
    (hanything : ¬ lit "<<<GLOBSTAR>>>" <:+: pattern) : pieces pattern = cutPieces pattern := by
  rw [pieces_eq_pass, pass_eq_self (mt (infix_of_infix_cutPieces (by decide)) hfolders),
    pass_eq_self (mt (infix_of_infix_cutPieces (by decide)) hanything)]

/-- The passes find the one reading of a pattern. -/
theorem itemizes_iff {pattern : Text} {ps : List Piece} (hfolders : ¬ lit "<<<GLOBSTAR_DIR>>>" <:+: pattern)
    (hanything : ¬ lit "<<<GLOBSTAR>>>" <:+: pattern) : Itemizes pattern ps ↔ ps = pieces pattern := by
  rw [pieces_eq_cutPieces hfolders hanything]
  constructor
  · exact fun h => h.unique (itemizes_cutPieces pattern)
  · rintro rfl
    exact itemizes_cutPieces pattern

/-! ### What the pieces accept -/

/-- A text without line terminators. -/
def IsLine (t : Text) : Prop := ∀ u ∈ t, u ≠ 0x000A ∧ u ≠ 0x000D ∧ u ≠ 0x2028 ∧ u ≠ 0x2029

/-- The texts that a piece stands for. -/
def Piece.Accepts : Piece → Text → Prop
  | folders, t => t = [] ∨ IsLine t ∧ lit "/" <:+ t
  | anything, t => IsLine t
  | name, t => unit '/' ∉ t
  | one, t => ∃ u, u ≠ unit '/' ∧ t = [u]
  | exactly u, t => t = [u]

section Rests

variable {t rest : Text}

theorem lit_slash : lit "/" = [unit '/'] := by decide

theorem isLine_iff : IsLine t ↔ ∀ u ∈ t, isLineTerminator u = false := by
  simp [IsLine, isLineTerminator, and_assoc]

@[simp] theorem isLine_nil : IsLine [] := by simp [IsLine]

@[simp] theorem isLine_append {t' : Text} : IsLine (t ++ t') ↔ IsLine t ∧ IsLine t' := by
  simp only [IsLine, List.forall_mem_append]

theorem isLine_cons {u : CodeUnit} : IsLine (u :: t) ↔ isLineTerminator u = false ∧ IsLine t := by
  rw [isLine_iff, isLine_iff, List.forall_mem_cons]

theorem mem_restsAfterRun_iff {p : CodeUnit → Bool} :
    rest ∈ restsAfterRun p t ↔ ∃ front, (∀ u ∈ front, p u) ∧ t = front ++ rest := by
  induction t with
  | nil =>
      rw [restsAfterRun, List.mem_singleton]
      constructor
      · rintro rfl
        exact ⟨[], by simp, rfl⟩
      · rintro ⟨front, -, heq⟩
        exact (List.append_eq_nil_iff.mp heq.symm).2
  | cons u t ih =>
      rw [restsAfterRun, List.mem_cons]
      constructor
      · rintro (rfl | h)
        · exact ⟨[], by simp, rfl⟩
        · split at h
          · next hu =>
            obtain ⟨front, hfront, rfl⟩ := ih.mp h
            exact ⟨u :: front, by simpa [hu] using hfront, rfl⟩
          · cases h
      · rintro ⟨front, hfront, heq⟩
        cases front with
        | nil => exact .inl heq.symm
        | cons v front =>
            obtain ⟨rfl, rfl⟩ := List.cons.inj heq
            rw [List.forall_mem_cons] at hfront
            rw [if_pos hfront.1]
            exact .inr (ih.mpr ⟨front, hfront.2, rfl⟩)

theorem mem_restsAfterSlash_iff :
    rest ∈ restsAfterSlash t ↔ ∃ front, IsLine front ∧ t = front ++ unit '/' :: rest := by
  induction t with
  | nil => simp [restsAfterSlash]
  | cons u t ih =>
      rw [restsAfterSlash]
      constructor
      · intro h
        split at h
        · cases h
        · next hline =>
          have hbehind : rest ∈ restsAfterSlash t → ∃ front, IsLine front ∧ u :: t = front ++ unit '/' :: rest := by
            intro h
            obtain ⟨front, hfront, rfl⟩ := ih.mp h
            exact ⟨u :: front, isLine_cons.mpr ⟨Bool.eq_false_iff.mpr hline, hfront⟩, rfl⟩
          split at h
          · next hslash =>
            rcases List.mem_cons.mp h with rfl | h
            · exact ⟨[], isLine_nil, by rw [hslash, List.nil_append]⟩
            · exact hbehind h
          · exact hbehind h
      · rintro ⟨front, hline, heq⟩
        cases front with
        | nil =>
            obtain ⟨rfl, rfl⟩ := List.cons.inj heq
            rw [if_neg (by decide), if_pos rfl]
            exact List.mem_cons_self
        | cons v front =>
            obtain ⟨rfl, rfl⟩ := List.cons.inj heq
            obtain ⟨hu, hfront⟩ := isLine_cons.mp hline
            have hmem := ih.mpr ⟨front, hfront, rfl⟩
            rw [if_neg (Bool.eq_false_iff.mp hu)]
            split
            · exact List.mem_cons_of_mem _ hmem
            · exact hmem

/-- What can be left behind a piece. -/
theorem Piece.mem_rests_iff {p : Piece} : rest ∈ p.rests t ↔ ∃ front, p.Accepts front ∧ t = front ++ rest := by
  cases p with
  | folders =>
      rw [Piece.rests, List.mem_cons, mem_restsAfterSlash_iff]
      constructor
      · rintro (rfl | ⟨front, hline, rfl⟩)
        · exact ⟨[], .inl rfl, rfl⟩
        · have hslash : IsLine (lit "/") := lit_slash ▸ isLine_cons.mpr ⟨by decide, isLine_nil⟩
          exact ⟨front ++ lit "/", .inr ⟨isLine_append.mpr ⟨hline, hslash⟩, List.suffix_append _ _⟩, by simp [lit_slash]⟩
      · rintro ⟨_, rfl | ⟨hline, front, rfl⟩, rfl⟩
        · exact .inl rfl
        · exact .inr ⟨front, (isLine_append.mp hline).1, by simp [lit_slash]⟩
  | anything => simp only [Piece.rests, mem_restsAfterRun_iff, Piece.Accepts, isLine_iff, Bool.not_eq_true']
  | name => simp only [Piece.rests, mem_restsAfterRun_iff, Piece.Accepts, decide_eq_true_eq, List.forall_mem_ne']
  | one =>
      cases t with
      | nil => simp [Piece.rests, Piece.Accepts]
      | cons u t =>
          rw [Piece.rests]
          split
          · next hu => simp [Piece.Accepts, hu]
          · next hu => simp [Piece.Accepts, hu, eq_comm]
  | exactly v =>
      cases t with
      | nil => simp [Piece.rests, Piece.Accepts]
      | cons u t =>
          rw [Piece.rests]
          split
          · next hu => simp [Piece.Accepts, hu, eq_comm]
          · next hu => simp [Piece.Accepts, hu]

end Rests

theorem mem_foldl_rests_iff {ps : List Piece} {ts : List Text} {rest : Text} :
    rest ∈ ps.foldl (fun ts p => (ts.flatMap p.rests).eraseDups) ts ↔
      ∃ t ∈ ts, ∃ parts, List.Forall₂ Piece.Accepts ps parts ∧ t = parts.flatten ++ rest := by
  induction ps generalizing ts with
  | nil => simp
  | cons p ps ih =>
      simp only [List.foldl_cons, ih, List.mem_eraseDups, List.mem_flatMap, Piece.mem_rests_iff]
      constructor
      · rintro ⟨_, ⟨t, ht, front, hfront, rfl⟩, parts, hparts, rfl⟩
        exact ⟨_, ht, front :: parts, .cons hfront hparts, by simp⟩
      · rintro ⟨t, ht, _, hparts, rfl⟩
        cases hparts with
        | @cons _ front _ parts hfront hparts =>
            exact ⟨parts.flatten ++ rest, ⟨_, ht, front, hfront, by simp⟩, parts, hparts, rfl⟩

/-- What can be left behind pieces in order. -/
theorem mem_restsAfter_iff {ps : List Piece} {t rest : Text} :
    rest ∈ restsAfter ps t ↔ ∃ parts, List.Forall₂ Piece.Accepts ps parts ∧ t = parts.flatten ++ rest := by
  simp only [restsAfter, mem_foldl_rests_iff, List.mem_singleton, exists_eq_left]

theorem isMatch_iff_pieces {pattern t : Text} :
    isMatch pattern t = true ↔ ∃ parts, List.Forall₂ Piece.Accepts (pieces pattern) parts ∧ t = parts.flatten := by
  simp [isMatch, mem_restsAfter_iff]

/-- **Matching decides the language of a pattern.**  A pattern that does not hold the words for `**/` and `**` is read
in exactly one way, and it matches the texts that are made of parts accepted, in order, by its pieces. -/
theorem isMatch_iff_exists_parts (pattern t : Text) (hfolders : ¬ lit "<<<GLOBSTAR_DIR>>>" <:+: pattern)
    (hanything : ¬ lit "<<<GLOBSTAR>>>" <:+: pattern) :
    (∃! items, Itemizes pattern items) ∧
      (isMatch pattern t = true ↔
        ∃ items parts, Itemizes pattern items ∧ List.Forall₂ Piece.Accepts items parts ∧ t = parts.flatten) := by
  simp only [itemizes_iff hfolders hanything, isMatch_iff_pieces]
  simp

/-- A run of three asterisks before a slash, with units around it that stand for themselves. -/
theorem isMatch_iff_exists_parts_asterisks :
    let pattern := lit "a.***/[b]?**(c|d)"
    let t := lit "a.x/y/[b]^z/z(c|d)"
    (¬ lit "<<<GLOBSTAR_DIR>>>" <:+: pattern ∧ ¬ lit "<<<GLOBSTAR>>>" <:+: pattern) ∧
      (∃! items, Itemizes pattern items) ∧
      ∃ items parts, Itemizes pattern items ∧ List.Forall₂ Piece.Accepts items parts ∧ t = parts.flatten := by
  intro pattern t
  have hfolders : ¬ lit "<<<GLOBSTAR_DIR>>>" <:+: pattern := by decide +kernel
  have hanything : ¬ lit "<<<GLOBSTAR>>>" <:+: pattern := by decide +kernel
  obtain ⟨hitems, hmatch⟩ := isMatch_iff_exists_parts pattern t hfolders hanything
  exact ⟨⟨hfolders, hanything⟩, hitems, hmatch.mp (by decide +kernel)⟩

end Wildcard
end Pictogram
