import Pictogram.Proofs.Disk.Matching

/-! # Pattern texts

A wildcard pattern can be written out as the text of a regular expression.  The units with a meaning there are escaped
first, and six rewrites of the whole text follow, each from left to right (`patternText`).  They put words for `**/` and
`**` before they look for `*`, and turn the words into expressions at the end.

A rewrite never touches what is escaped or what an earlier one has put, since its spelling can neither begin inside nor
reach into it from the front (`Settled`).  So it does to the text of some pieces what a pass does to the pieces
(`rewrite_flatMap`), the pattern text is the text of the pieces of the pattern (`patternText_eq`), and it can be read in
no other way (`reads_patternText_iff`). -/

namespace Pictogram
namespace Wildcard

/-! ### The text of a pattern -/

/-- The units with a meaning of their own in a regular expression, but for those of the wildcards. -/
def specials : Text := lit ".+^$\x7b\x7d()|[]\\"

def escapeUnit (u : CodeUnit) : Text := if u ∈ specials then [unit '\\', u] else [u]

/-- Puts a text for each occurrence of a spelling, past `skip` units of one already found. -/
def rewrite (spelling put : Text) : (skip : Nat) → Text → Text
  | _, [] => []
  | skip + 1, _ :: t => rewrite spelling put skip t
  | 0, u :: t =>
    if spelling.isPrefixOf (u :: t) then put ++ rewrite spelling put (spelling.length - 1) t
    else u :: rewrite spelling put 0 t

/-- The rewrites in order. -/
def rewrites : List (Text × Text) :=
  [(lit "**/", lit "<<<GLOBSTAR_DIR>>>"), (lit "**", lit "<<<GLOBSTAR>>>"), (lit "*", lit "[^/]*"), (lit "?", lit "[^/]"),
    (lit "<<<GLOBSTAR_DIR>>>", lit "(?:.*/)?"), (lit "<<<GLOBSTAR>>>", lit ".*")]

/-- The regular expression of a pattern. -/
def patternText (pattern : Text) : Text :=
  rewrites.foldl (fun t (spelling, put) => rewrite spelling put 0 t) (pattern.flatMap escapeUnit)

/-- The text of a piece, given those of the two pieces that are put as words first. -/
def Piece.textWith (folders anything : Text) : Piece → Text
  | .folders => folders
  | .anything => anything
  | .name => lit "[^/]*"
  | .one => lit "[^/]"
  | .exactly u => escapeUnit u

/-- The regular expression of a piece. -/
def Piece.text : Piece → Text := textWith (lit "(?:.*/)?") (lit ".*")

/-! ### Rewriting -/

section Rewrite

variable {spelling put t : Text}

theorem rewrite_of_not_isPrefix {u : CodeUnit} (h : ¬ spelling <+: u :: t) :
    rewrite spelling put 0 (u :: t) = u :: rewrite spelling put 0 t :=
  if_neg (mt List.isPrefixOf_iff_prefix.mp h)

theorem rewrite_length_append (front t : Text) :
    rewrite spelling put front.length (front ++ t) = rewrite spelling put 0 t := by
  induction front with
  | nil => rfl
  | cons u front ih => exact ih

theorem rewrite_append (hspelling : spelling ≠ []) (t : Text) :
    rewrite spelling put 0 (spelling ++ t) = put ++ rewrite spelling put 0 t := by
  obtain ⟨u, spelling, rfl⟩ := List.exists_cons_of_ne_nil hspelling
  have hprefix : (u :: spelling).isPrefixOf (u :: (spelling ++ t)) :=
    List.isPrefixOf_iff_prefix.mpr (List.prefix_append (u :: spelling) t)
  rw [List.cons_append, rewrite, if_pos hprefix, List.length_cons, Nat.add_sub_cancel, rewrite_length_append]

end Rewrite

/-! ### Texts that a rewrite leaves alone -/

/-- Neither text begins with the other. -/
def Diverge (s t : Text) : Prop := ¬ s <+: t ∧ ¬ t <+: s

instance (s t : Text) : Decidable (Diverge s t) := inferInstanceAs (Decidable (_ ∧ _))

theorem Diverge.not_prefix_append {s t : Text} (h : Diverge s t) (rest : Text) : ¬ s <+: t ++ rest := by
  intro hs
  rcases List.prefix_or_prefix_of_prefix hs (List.prefix_append t rest) with hle | hle
  · exact h.1 hle
  · exact h.2 hle

/-- No occurrence of the spelling that begins in front of the block reaches into it. -/
def Stops (spelling block : Text) : Prop := ∀ c ∈ spelling.tails, c ≠ [] → c ≠ spelling → Diverge c block

/-- No occurrence of the spelling begins in the block. -/
def Avoids (spelling block : Text) : Prop := ∀ d ∈ block.tails, d ≠ [] → Diverge spelling d

/-- The rewrite replaces the block as a whole, or leaves it as it is. -/
def Settled (spelling put block block' : Text) : Prop :=
  Stops spelling block ∧ (Avoids spelling block ∧ block' = block ∨ block = spelling ∧ block' = put)

instance (spelling block : Text) : Decidable (Stops spelling block) := List.decidableBAll _ _

instance (spelling block : Text) : Decidable (Avoids spelling block) := List.decidableBAll _ _

instance (spelling put block block' : Text) : Decidable (Settled spelling put block block') :=
  inferInstanceAs (Decidable (_ ∧ (_ ∨ _)))

theorem rewrite_of_avoids {spelling put block : Text} (h : Avoids spelling block) (t : Text) :
    rewrite spelling put 0 (block ++ t) = block ++ rewrite spelling put 0 t := by
  induction block with
  | nil => rfl
  | cons u block ih =>
      have hfront : Diverge spelling (u :: block) := h _ (by simp) (List.cons_ne_nil u block)
      have hno : ¬ spelling <+: u :: (block ++ t) := hfront.not_prefix_append t
      have htail : Avoids spelling block := fun d hd => h d (by simp_all)
      rw [List.cons_append, rewrite_of_not_isPrefix hno, ih htail, List.cons_append]

theorem rewrite_of_settled {spelling put block block' : Text} (hspelling : spelling ≠ [])
    (h : Settled spelling put block block') (t : Text) :
    rewrite spelling put 0 (block ++ t) = block' ++ rewrite spelling put 0 t := by
  obtain ⟨-, ⟨havoids, rfl⟩ | ⟨rfl, rfl⟩⟩ := h
  · exact rewrite_of_avoids havoids t
  · exact rewrite_append hspelling t

theorem diverge_of_disjoint {s t : Text} (hs : s ≠ []) (ht : t ≠ []) (h : ∀ u ∈ t, u ∉ s) : Diverge s t := by
  obtain ⟨u, s, rfl⟩ := List.exists_cons_of_ne_nil hs
  obtain ⟨v, t, rfl⟩ := List.exists_cons_of_ne_nil ht
  have hne : u ≠ v := by
    rintro rfl
    exact h u List.mem_cons_self List.mem_cons_self
  exact ⟨fun hprefix => hne (List.cons_prefix_cons.mp hprefix).1, fun hprefix => hne (List.cons_prefix_cons.mp hprefix).1.symm⟩

/-- A block is left as it is if it has no unit in common with the spelling. -/
theorem settled_of_disjoint {spelling put block : Text} (hspelling : spelling ≠ []) (hblock : block ≠ [])
    (h : ∀ u ∈ block, u ∉ spelling) : Settled spelling put block block := by
  refine ⟨?_, .inl ⟨?_, rfl⟩⟩
  · intro c hc hne _
    exact diverge_of_disjoint hne hblock fun u hu huc => h u hu (((List.mem_tails _ _).mp hc).subset huc)
  · intro d hd hne
    exact diverge_of_disjoint hspelling hne fun u hu => h u (((List.mem_tails _ _).mp hd).subset hu)

/-! ### A rewrite does what a pass does -/

section Pass

variable {spelling put c : Text} {piece p : Piece} {ps : List Piece} {text text' : Piece → Text}

/-- A piece that stands for a unit of the text, or for a block that the rewrite does not cut. -/
inductive Kept (spelling put : Text) (text text' : Piece → Text) (p : Piece) : Prop
  | plain (u : CodeUnit) : p = .exactly u → text p = [u] → text' p = [u] → Kept spelling put text text' p
  | block : p ∉ spelling.map .exactly → Settled spelling put (text p) (text' p) → Kept spelling put text text' p

/-- What begins in front of the pieces and reaches into their text goes on with units of the spelling. -/
theorem prefix_of_prefix_flatMap (hkept : ∀ p ∈ ps, Kept spelling put text text' p) (hc : c <:+ spelling)
    (hne : c ≠ spelling) (h : c <+: ps.flatMap text) : c.map Piece.exactly <+: ps := by
  induction c generalizing ps with
  | nil => exact List.nil_prefix
  | cons v c ih =>
      cases ps with
      | nil => simp at h
      | cons p ps =>
          rw [List.flatMap_cons] at h
          cases hkept p List.mem_cons_self with
          | plain u hp htext =>
              rw [htext, List.singleton_append, List.cons_prefix_cons] at h
              obtain ⟨rfl, h⟩ := h
              have hshorter : c ≠ spelling := by
                rintro rfl
                exact absurd hc.length_le (by simp)
              rw [hp, List.map_cons, List.cons_prefix_cons]
              exact ⟨rfl, ih (fun q hq => hkept q (List.mem_cons_of_mem p hq)) ((List.suffix_cons v c).trans hc)
                hshorter h⟩
          | block _ hsettled =>
              have hdiverge := hsettled.1 _ ((List.mem_tails _ _).mpr hc) (List.cons_ne_nil v c) hne
              exact absurd h (hdiverge.not_prefix_append _)

theorem Kept.text_eq {u : CodeUnit} (h : Kept spelling put text text' (.exactly u)) (hu : u ∈ spelling) :
    text (.exactly u) = [u] := by
  cases h with
  | plain v hv htext => rw [htext, Piece.exactly.inj hv]
  | block hnot _ => exact absurd (List.mem_map_of_mem hu) hnot

theorem flatMap_map_exactly (h : ∀ u ∈ c, text (.exactly u) = [u]) : (c.map Piece.exactly).flatMap text = c := by
  induction c with
  | nil => rfl
  | cons u c ih =>
      rw [List.map_cons, List.flatMap_cons, h u List.mem_cons_self, ih fun v hv => h v (List.mem_cons_of_mem u hv),
        List.singleton_append]

/-- **A rewrite of the text of pieces gives the text of the pieces after the pass.** -/
theorem rewrite_flatMap (hspelling : spelling ≠ []) (hput : text' piece = put)
    (hkept : ∀ p ∈ ps, Kept spelling put text text' p) :
    rewrite spelling put 0 (ps.flatMap text) = (pass spelling piece 0 ps).flatMap text' := by
  induction hlength : ps.length using Nat.strong_induction_on generalizing ps with
  | _ n ih =>
    subst hlength
    by_cases hfound : spelling.map Piece.exactly <+: ps
    · obtain ⟨qs, rfl⟩ := hfound
      have hspelled : (spelling.map Piece.exactly).flatMap text = spelling := by
        apply flatMap_map_exactly
        intro u hu
        exact (hkept _ (List.mem_append_left qs (List.mem_map_of_mem hu))).text_eq hu
      have hshorter : qs.length < (spelling.map Piece.exactly ++ qs).length := by
        have := List.length_pos_iff.mpr hspelling
        simp only [List.length_append, List.length_map]
        omega
      have hends : Text.EndsFirst spelling ([] ++ spelling) := Text.endsFirst_self spelling
      have hpass : pass spelling piece 0 (spelling.map .exactly ++ qs) = piece :: pass spelling piece 0 qs :=
        pass_of_endsFirst hspelling hends
      rw [List.flatMap_append, hspelled, rewrite_append hspelling, hpass, List.flatMap_cons, hput,
        ih _ hshorter (fun p hp => hkept p (List.mem_append_right _ hp)) rfl]
    · cases ps with
      | nil => rfl
      | cons p ps =>
          have hrest : rewrite spelling put 0 (ps.flatMap text) = (pass spelling piece 0 ps).flatMap text' :=
            ih _ (Nat.lt_succ_self _) (fun q hq => hkept q (List.mem_cons_of_mem p hq)) rfl
          rw [pass_of_not_isPrefix hfound, List.flatMap_cons, List.flatMap_cons]
          cases hkept p List.mem_cons_self with
          | plain u hp htext htext' =>
              have hno : ¬ spelling <+: u :: ps.flatMap text := by
                intro h
                obtain ⟨v, c, rfl⟩ := List.exists_cons_of_ne_nil hspelling
                obtain ⟨rfl, hc⟩ := List.cons_prefix_cons.mp h
                have hcover := prefix_of_prefix_flatMap (fun q hq => hkept q (List.mem_cons_of_mem p hq))
                  (List.suffix_cons v c) (by simp) hc
                exact hfound (hp ▸ List.cons_prefix_cons.mpr ⟨rfl, hcover⟩)
              rw [htext, htext', List.singleton_append, rewrite_of_not_isPrefix hno, hrest, List.singleton_append]
          | block _ hsettled => rw [rewrite_of_settled hspelling hsettled, hrest]

end Pass

/-! ### The pieces of the pattern text -/

/-- A rewrite that looks for no special unit and does not cut the blocks of the wildcards cuts that of no piece. -/
theorem kept_textWith {spelling put folders anything folders' anything' : Text} {p : Piece} (hspelling : spelling ≠ [])
    (hspecials : ∀ u ∈ specials, u ∉ spelling)
    (hfolders : Settled spelling put folders folders') (hanything : Settled spelling put anything anything')
    (hname : p = .name → Settled spelling put (lit "[^/]*") (lit "[^/]*"))
    (hone : Settled spelling put (lit "[^/]") (lit "[^/]")) :
    Kept spelling put (Piece.textWith folders anything) (Piece.textWith folders' anything') p := by
  cases p with
  | folders => exact .block (by simp) hfolders
  | anything => exact .block (by simp) hanything
  | name => exact .block (by simp) (hname rfl)
  | one => exact .block (by simp) hone
  | exactly u =>
      by_cases hu : u ∈ specials
      · have hnot : Piece.exactly u ∉ spelling.map .exactly := by simpa using hspecials u hu
        refine .block hnot ?_
        simp only [Piece.textWith, escapeUnit, if_pos hu]
        apply settled_of_disjoint hspelling (List.cons_ne_nil _ _)
        intro v hv
        rcases List.mem_pair.mp hv with rfl | rfl
        · exact hspecials _ (by decide)
        · exact hspecials v hu
      · exact .plain u rfl (if_neg hu) (if_neg hu)

theorem mem_pass {spelling : Text} {piece p : Piece} {skip : Nat} {ps : List Piece}
    (h : p ∈ pass spelling piece skip ps) : p = piece ∨ p ∈ ps := by
  fun_induction pass spelling piece skip ps with
  | case1 => exact .inr h
  | case2 skip q qs ih => exact (ih h).imp_right (List.mem_cons_of_mem q)
  | case3 q qs _ ih =>
      rcases List.mem_cons.mp h with rfl | h
      · exact .inl rfl
      · exact (ih h).imp_right (List.mem_cons_of_mem q)
  | case4 q qs _ ih =>
      rcases List.mem_cons.mp h with rfl | h
      · exact .inr List.mem_cons_self
      · exact (ih h).imp_right (List.mem_cons_of_mem q)

theorem rewrite_textWith {spelling put folders anything folders' anything' : Text} {piece : Piece} {ps : List Piece}
    (hspelling : spelling ≠ []) (hput : Piece.textWith folders' anything' piece = put)
    (hspecials : specials.all (· ∉ spelling))
    (hfolders : Settled spelling put folders folders') (hanything : Settled spelling put anything anything')
    (hname : .name ∈ ps → Settled spelling put (lit "[^/]*") (lit "[^/]*"))
    (hone : Settled spelling put (lit "[^/]") (lit "[^/]")) :
    rewrite spelling put 0 (ps.flatMap (Piece.textWith folders anything)) =
      (pass spelling piece 0 ps).flatMap (Piece.textWith folders' anything') := by
  apply rewrite_flatMap hspelling hput
  simp only [List.all_eq_true, decide_eq_true_eq] at hspecials
  intro p hp
  exact kept_textWith hspelling hspecials hfolders hanything (fun hname' => hname (hname' ▸ hp)) hone

/-- **The regular expression of a pattern is that of its pieces.** -/
theorem patternText_eq (pattern : Text) : patternText pattern = (pieces pattern).flatMap Piece.text := by
  let words := Piece.textWith (lit "<<<GLOBSTAR_DIR>>>") (lit "<<<GLOBSTAR>>>")
  let ps₀ := pattern.map Piece.exactly
  let ps₁ := pass (lit "**/") .folders 0 ps₀
  let ps₂ := pass (lit "**") .anything 0 ps₁
  let ps₃ := pass (lit "*") .name 0 ps₂
  let ps₄ := pass (lit "?") .one 0 ps₃
  let ps₅ := pass (lit "<<<GLOBSTAR_DIR>>>") .folders 0 ps₄
  have hname₀ : .name ∉ ps₀ := by simp [ps₀]
  have hname₁ : .name ∉ ps₁ := fun h => (mem_pass h).elim nofun hname₀
  have hname₂ : .name ∉ ps₂ := fun h => (mem_pass h).elim nofun hname₁
  have hescaped : pattern.flatMap escapeUnit = ps₀.flatMap words := by
    rw [List.flatMap_map]
    rfl
  have h₁ : rewrite (lit "**/") (lit "<<<GLOBSTAR_DIR>>>") 0 (ps₀.flatMap words) = ps₁.flatMap words :=
    rewrite_textWith (by decide) rfl (by decide) (by decide) (by decide) (absurd · hname₀) (by decide)
  have h₂ : rewrite (lit "**") (lit "<<<GLOBSTAR>>>") 0 (ps₁.flatMap words) = ps₂.flatMap words :=
    rewrite_textWith (by decide) rfl (by decide) (by decide) (by decide) (absurd · hname₁) (by decide)
  have h₃ : rewrite (lit "*") (lit "[^/]*") 0 (ps₂.flatMap words) = ps₃.flatMap words :=
    rewrite_textWith (by decide) rfl (by decide) (by decide) (by decide) (absurd · hname₂) (by decide)
  have h₄ : rewrite (lit "?") (lit "[^/]") 0 (ps₃.flatMap words) = ps₄.flatMap words :=
    rewrite_textWith (by decide) rfl (by decide) (by decide) (by decide) (fun _ => by decide) (by decide)
  have h₅ : rewrite (lit "<<<GLOBSTAR_DIR>>>") (lit "(?:.*/)?") 0 (ps₄.flatMap words) =
      ps₅.flatMap (Piece.textWith (lit "(?:.*/)?") (lit "<<<GLOBSTAR>>>")) :=
    rewrite_textWith (by decide) rfl (by decide) (by decide) (by decide) (fun _ => by decide) (by decide)
  have h₆ : rewrite (lit "<<<GLOBSTAR>>>") (lit ".*") 0
      (ps₅.flatMap (Piece.textWith (lit "(?:.*/)?") (lit "<<<GLOBSTAR>>>"))) = (pieces pattern).flatMap Piece.text :=
    rewrite_textWith (by decide) rfl (by decide) (by decide) (by decide) (fun _ => by decide) (by decide)
  calc
    patternText pattern = rewrite (lit "<<<GLOBSTAR>>>") (lit ".*") 0 (rewrite (lit "<<<GLOBSTAR_DIR>>>") (lit "(?:.*/)?") 0
        (rewrite (lit "?") (lit "[^/]") 0 (rewrite (lit "*") (lit "[^/]*") 0
          (rewrite (lit "**") (lit "<<<GLOBSTAR>>>") 0 (rewrite (lit "**/") (lit "<<<GLOBSTAR_DIR>>>") 0
            (pattern.flatMap escapeUnit)))))) := rfl
    _ = (pieces pattern).flatMap Piece.text := by rw [hescaped, h₁, h₂, h₃, h₄, h₅, h₆]

/-! ### Reading regular expressions -/

/-- Reads one unit that stands for itself. -/
def readUnit? : Text → Option (Piece × Text)
  | [] => none
  | u :: t =>
    if u = unit '\\' then t.head?.map fun v => (.exactly v, t.tail)
    else if u ∈ specials ++ lit "*?" then none
    else some (.exactly u, t)

/-- Reads one piece; a class of units goes on to the star behind it. -/
def readPiece? (t : Text) : Option (Piece × Text) :=
  ([.folders, .anything, .name, .one].findSome? fun p : Piece => (Text.stripFront? p.text t).map (p, ·)) <|> readUnit? t

/-- The pieces that a regular expression is read as. -/
inductive Reads : Text → List Piece → Prop
  | nil : Reads [] []
  | cons {t rest : Text} {p : Piece} {ps : List Piece} : readPiece? t = some (p, rest) → Reads rest ps → Reads t (p :: ps)

theorem Reads.unique {t : Text} {ps qs : List Piece} (h : Reads t ps) (h' : Reads t qs) : ps = qs := by
  induction h generalizing qs with
  | nil =>
      cases h' with
      | nil => rfl
      | cons hread => cases hread
  | cons hread _ ih =>
      cases h' with
      | nil => cases hread
      | cons hread' h' =>
          cases hread.symm.trans hread'
          rw [ih h']

/-- No wildcard stands for itself. -/
def Literal (p : Piece) : Prop := p ≠ .exactly (unit '*') ∧ p ≠ .exactly (unit '?')

theorem literal_of_forall_ne {p : Piece} (h : ∀ u, p ≠ .exactly u) : Literal p := ⟨h _, h _⟩

/-- A unit without a meaning of its own begins no other piece. -/
theorem readPiece?_cons {u : CodeUnit} (hu : u ∉ specials) (hliteral : Literal (.exactly u)) (t : Text) :
    readPiece? (u :: t) = some (.exactly u, t) := by
  have hne : ∀ v ∈ specials, v ≠ u := fun v hv heq => hu (heq ▸ hv)
  have hfolders : Text.stripFront? Piece.folders.text (u :: t) = none := if_neg (hne (unit '(') (by decide))
  have hanything : Text.stripFront? Piece.anything.text (u :: t) = none := if_neg (hne (unit '.') (by decide))
  have hname : Text.stripFront? Piece.name.text (u :: t) = none := if_neg (hne (unit '[') (by decide))
  have hone : Text.stripFront? Piece.one.text (u :: t) = none := if_neg (hne (unit '[') (by decide))
  have hplain : u ∉ specials ++ lit "*?" := by
    rw [List.mem_append, not_or]
    refine ⟨hu, ?_⟩
    simpa [Literal, show lit "*?" = [unit '*', unit '?'] by decide] using hliteral
  have hescape : u ≠ unit '\\' := (hne (unit '\\') (by decide)).symm
  simp only [readPiece?, List.findSome?_cons, List.findSome?_nil, hfolders, hanything, hname, hone, Option.map_none,
    readUnit?, if_neg hescape, if_neg hplain]
  rfl

theorem readPiece?_text {p : Piece} {t : Text} (hp : Literal p) (ht : t.head? ≠ some (unit '*')) :
    readPiece? (p.text ++ t) = some (p, t) := by
  cases p with
  | folders => rfl
  | anything => rfl
  | name => rfl
  | one =>
      cases t with
      | nil => rfl
      | cons u t =>
          have hu : unit '*' ≠ u := fun heq => ht (congrArg some heq.symm)
          have hname : Text.stripFront? Piece.name.text (Piece.one.text ++ u :: t) = none := if_neg hu
          simp only [readPiece?, List.findSome?_cons, hname]
          rfl
  | exactly u =>
      by_cases hu : u ∈ specials
      · have htext : Piece.text (.exactly u) = [unit '\\', u] := if_pos hu
        rw [htext]
        rfl
      · have htext : Piece.text (.exactly u) = [u] := if_neg hu
        rw [htext, List.singleton_append, readPiece?_cons hu hp]

theorem head?_text_append {p : Piece} (hp : Literal p) (t : Text) : (p.text ++ t).head? ≠ some (unit '*') := by
  cases p with
  | exactly u =>
      by_cases hu : u ∈ specials
      · have htext : Piece.text (.exactly u) = [unit '\\', u] := if_pos hu
        rw [htext]
        exact fun heq => absurd (Option.some.inj heq) (by decide)
      · have htext : Piece.text (.exactly u) = [u] := if_neg hu
        rw [htext]
        intro heq
        exact hp.1 (congrArg Piece.exactly (Option.some.inj heq))
  | _ => exact fun heq => absurd (Option.some.inj heq) (by decide)

theorem head?_flatMap_text {ps : List Piece} (h : ∀ p ∈ ps, Literal p) :
    (ps.flatMap Piece.text).head? ≠ some (unit '*') := by
  cases ps with
  | nil => simp
  | cons p ps => exact head?_text_append (h p List.mem_cons_self) _

theorem reads_flatMap_text {ps : List Piece} (h : ∀ p ∈ ps, Literal p) : Reads (ps.flatMap Piece.text) ps := by
  induction ps with
  | nil => exact .nil
  | cons p ps ih =>
      have hps : ∀ q ∈ ps, Literal q := fun q hq => h q (List.mem_cons_of_mem p hq)
      exact .cons (readPiece?_text (h p List.mem_cons_self) (head?_flatMap_text hps)) (ih hps)

/-- The passes for `*` and `?` leave none of them. -/
theorem literal_reread (p : Piece) : Literal p.reread := by
  cases p with
  | exactly u =>
      simp only [Piece.reread, Piece.ofUnit]
      split
      · exact literal_of_forall_ne (by simp)
      · split
        · exact literal_of_forall_ne (by simp)
        · next hstar hmark => exact ⟨fun heq => hstar (Piece.exactly.inj heq), fun heq => hmark (Piece.exactly.inj heq)⟩
  | _ => exact literal_of_forall_ne (by simp [Piece.reread])

theorem literal_of_mem_pieces {pattern : Text} {p : Piece} (h : p ∈ pieces pattern) : Literal p := by
  rw [pieces_eq_pass] at h
  rcases mem_pass h with rfl | h
  · exact literal_of_forall_ne (by simp)
  · rcases mem_pass h with rfl | h
    · exact literal_of_forall_ne (by simp)
    · obtain ⟨q, -, rfl⟩ := List.mem_map.mp h
      exact literal_reread q

/-- **The regular expression of a pattern is read as the pieces of the pattern, and in no other way.** -/
theorem reads_patternText_iff {pattern : Text} {ps : List Piece} : Reads (patternText pattern) ps ↔ ps = pieces pattern := by
  have hreads : Reads (patternText pattern) (pieces pattern) := by
    rw [patternText_eq]
    exact reads_flatMap_text fun p hp => literal_of_mem_pieces hp
  constructor
  · exact fun h => h.unique hreads
  · rintro rfl
    exact hreads

end Wildcard
end Pictogram
