import Pictogram.Proofs.Markup.Placeless

/-! # Comments

A comment is read from its `<!--` to the first `-->`, and the search for that begins at the `<!--` itself.  So a
comment whose body begins with `>` or `->` ends there, since its dashes are those of the `<!--`, and the rest of
the body is read as markup.  Every other comment ends where its body does (`isComment_of_isBody`).

Apart from places, a reader in front of a comment gives the replies of a reader in the same state behind it,
whatever it is asked (`ReadsAs.answer`, `outcomes_of_isComment`). -/

namespace Pictogram

/-! ### Where a comment ends -/

/-- A comment as it is read. -/
structure IsComment (x : Text) : Prop where
  front : lit "<!--" <+: x
  ends : Text.EndsFirst (lit "-->") x

/-- A comment is passed over. -/
theorem Reader.step_of_isComment {r : Reader} {x rest : Text} (hx : IsComment x) (hr : r.cursor.rest = x ++ rest) :
    r.step = .ok none { r with cursor := r.cursor.advance x.length } := by
  have hconstruct : Construct.ofText r.cursor.rest = .comment :=
    if_pos (Text.startsWith_iff.mpr (hr ▸ hx.front.trans (List.prefix_append x rest)))
  obtain ⟨t, ht⟩ := hx.ends.1
  have hoffset : Text.offsetOf? (lit "-->") 0 r.cursor.rest = some t.length := by
    rw [hr, ← ht, List.append_assoc, Text.offsetOf?_of_endsFirst (by decide) (ht ▸ hx.ends), Nat.zero_add]
  have hlength : t.length + (lit "-->").length = x.length := by rw [← ht, List.length_append]
  simp only [step, hconstruct, Cursor.readPast, Cursor.past?, hoffset, Option.map_some, lift, hlength]

/-- The body of a comment: no two dashes in a row, and none at the end. -/
structure IsBody (w : Text) : Prop where
  single : ¬ lit "--" <:+: w
  last : w.getLast? ≠ some (unit '-')

instance (w : Text) : Decidable (IsBody w) := decidable_of_iff (¬ lit "--" <:+: w ∧ w.getLast? ≠ some (unit '-'))
  ⟨fun h => ⟨h.1, h.2⟩, fun h => ⟨h.single, h.last⟩⟩

/-- A comment as it is written. -/
def comment (w : Text) : Text := lit "<!--" ++ (w ++ lit "-->")

theorem IsBody.tail {u : CodeUnit} {w : Text} (h : IsBody (u :: w)) : IsBody w := by
  refine ⟨fun hw => h.single (hw.trans (List.suffix_cons u w).isInfix), fun hlast => ?_⟩
  apply h.last
  rw [List.getLast?_cons, hlast]
  rfl

theorem prefix_terminator_iff {t : Text} {u : CodeUnit} :
    lit "-->" <+: u :: t ↔ u = unit '-' ∧ lit "->" <+: t := by
  rw [show lit "-->" = unit '-' :: lit "->" from rfl, List.cons_prefix_cons, eq_comm]

theorem IsBody.endsFirst {w : Text} (h : IsBody w) : Text.EndsFirst (lit "-->") (w ++ lit "-->") := by
  induction w with
  | nil => exact Text.endsFirst_self _
  | cons u w ih =>
      apply (ih h.tail).cons
      intro hstop
      obtain ⟨rfl, harrow⟩ := prefix_terminator_iff.mp hstop
      cases w with
      | nil => exact h.last rfl
      | cons v w =>
          obtain ⟨rfl, -⟩ := List.cons_prefix_cons.mp harrow
          exact h.single ⟨[], w, rfl⟩

/-- A comment ends where its body does, unless the dashes of its `<!--` belong to an end before that: such an end begins
at the second dash or at the first. -/
theorem isComment_of_isBody {w : Text} (h : IsBody w) (hangle : ¬ lit ">" <+: w) (harrow : ¬ lit "->" <+: w) :
    IsComment (comment w) := by
  refine ⟨List.prefix_append _ _, (((h.endsFirst.cons ?_).cons ?_).cons ?_).cons ?_⟩
  · intro hstop
    have hfront := (prefix_terminator_iff.mp hstop).2
    rcases w with _ | ⟨u, _ | ⟨v, w⟩⟩
    · exact absurd hfront (by decide)
    · obtain ⟨rfl, hsecond⟩ := List.cons_prefix_cons.mp hfront
      exact h.last rfl
    · obtain ⟨rfl, hsecond⟩ := List.cons_prefix_cons.mp hfront
      obtain ⟨rfl, -⟩ := List.cons_prefix_cons.mp hsecond
      exact harrow ⟨w, rfl⟩
  · intro hstop
    have hfront := (List.cons_prefix_cons.mp (prefix_terminator_iff.mp hstop).2).2
    rcases w with _ | ⟨u, w⟩
    · exact absurd hfront (by decide)
    · obtain ⟨rfl, -⟩ := List.cons_prefix_cons.mp hfront
      exact hangle ⟨w, rfl⟩
  · intro hstop
    exact absurd (prefix_terminator_iff.mp hstop).1 (by decide)
  · intro hstop
    exact absurd (prefix_terminator_iff.mp hstop).1 (by decide)

/-! ### Replies -/

namespace Reader

/-- Two readers that differ in places only, or of which the first has a comment in front of it. -/
structure ReadsAs (r r' : Reader) : Prop where
  rest_eq : ∃ x, (x = [] ∨ IsComment x) ∧ r.cursor.rest = x ++ r'.cursor.rest
  opened_eq : r'.opened = r.opened
  owed_eq : r'.pending.map Prod.fst = r.pending.map Prod.fst

variable {r r' s : Reader}

theorem Matches.readsAs (h : Matches r r') : ReadsAs r r' :=
  ⟨⟨[], .inl rfl, h.cursor.rest_eq.symm⟩, h.opened_eq, h.owed_eq⟩

/-- Reading passes over the comment. -/
theorem ReadsAs.read (h : ReadsAs r r') : Outcome.Agrees SameEvent Matches r.read r'.read := by
  obtain ⟨x, rfl | hx, hrest⟩ := h.rest_eq
  · exact Matches.read ⟨hrest.symm, h.opened_eq, h.owed_eq⟩
  · have hne : r.cursor.rest ≠ [] := by
      obtain ⟨t, rfl⟩ := hx.front
      rw [hrest]
      exact List.cons_ne_nil _ _
    rw [read_of_step_none hne (step_of_isComment hx hrest)]
    refine Matches.read ⟨?_, h.opened_eq, h.owed_eq⟩
    show r'.cursor.rest = r.cursor.rest.drop x.length
    rw [hrest, List.drop_left]

/-- A closing token that is owed comes before the comment. -/
theorem ReadsAs.next (h : ReadsAs r r') : Outcome.Agrees SameEvent ReadsAs r.next r'.next := by
  have howed := h.owed_eq
  unfold Reader.next
  cases hp : r.pending with
  | none =>
      rw [hp] at howed
      rw [Option.map_eq_none_iff.mp howed]
      exact h.read.imp (fun _ _ => Matches.readsAs)
  | some owed =>
      rw [hp] at howed
      obtain ⟨owed', hp', hname⟩ := Option.map_eq_some_iff.mp howed
      rw [hp']
      exact .ok (congrArg (fun name => some (Event.closing name)) hname) ⟨h.rest_eq, congrArg List.tail h.opened_eq, rfl⟩

theorem isClosing_of_event {t t' : Token} (h : t'.event = t.event) : t'.isClosing = t.isClosing := by
  cases t <;> cases t' <;> first | rfl | cases h

theorem ReadsAs.next_token {t : Token} (h : ReadsAs r r') (hn : r.next = .ok (some t) s) :
    ∃ t' s', r'.next = .ok (some t') s' ∧ t'.event = t.event ∧ ReadsAs s s' := by
  obtain ⟨t', s', hn', ht, hs⟩ := (hn ▸ h.next).exists_of_ok
  cases t' with
  | none => cases ht
  | some t' => exact ⟨t', s', hn', Option.some.inj ht, hs⟩

theorem ReadsAs.skipTo (h : ReadsAs r r') (depth : Nat) :
    Outcome.Agrees Eq ReadsAs (r.skipTo depth) (r'.skipTo depth) := by
  fun_induction Reader.skipTo r depth generalizing r' with
  | case1 r e s hn =>
      obtain ⟨e', s', hn', he, hs⟩ := (hn ▸ h.next).exists_of_error
      rw [skipTo_of_next_error _ hn']
      exact .error he hs
  | case2 r s hn =>
      obtain ⟨t', s', hn', ht, hs⟩ := (hn ▸ h.next).exists_of_ok
      cases t' with
      | some t' => cases ht
      | none =>
          rw [skipTo_of_next_none _ hn']
          exact .error (congrArg Fault.unexpectedEnd hs.opened_eq) hs
  | case3 r t s hn _ hc =>
      obtain ⟨t', s', hn', ht, hs⟩ := h.next_token hn
      rw [skipTo_of_next _ hn', isClosing_of_event ht, hs.opened_eq, if_pos hc]
      exact .ok rfl hs
  | case4 r t s hn _ hc ih =>
      obtain ⟨t', s', hn', ht, hs⟩ := h.next_token hn
      rw [skipTo_of_next _ hn', isClosing_of_event ht, hs.opened_eq, if_neg hc]
      exact ih hs

end Reader

/-- What a reply says, apart from places. -/
def Reply.outcome : Reply → Except Fault (Option Event)
  | token t => .ok (some t.event)
  | ended => .ok none
  | skipped => .ok none
  | failed e => .error e.cause

namespace Reader

variable {r r' : Reader}

/-- What is replied to requests in order, apart from places. -/
def outcomes (r : Reader) : List Request → List (Except Fault (Option Event))
  | [] => []
  | q :: qs => (r.answer q).1.outcome :: outcomes (r.answer q).2 qs

/-- One request. -/
theorem ReadsAs.answer (h : ReadsAs r r') (q : Request) :
    (r'.answer q).1.outcome = (r.answer q).1.outcome ∧ ReadsAs (r.answer q).2 (r'.answer q).2 := by
  cases q with
  | next =>
      have hnext := h.next
      unfold Reader.answer
      dsimp only
      generalize r.next = o at hnext
      generalize r'.next = o' at hnext
      cases hnext with
      | error he hs => exact ⟨congrArg Except.error he, hs⟩
      | @ok t t' s s' ht hs =>
          cases t with
          | none =>
              cases t' with
              | none => exact ⟨rfl, hs⟩
              | some t' => cases ht
          | some t =>
              cases t' with
              | none => cases ht
              | some t' => exact ⟨congrArg Except.ok ht, hs⟩
  | skip =>
      have hskip := h.skipTo r.opened.length
      unfold Reader.answer Reader.skip
      dsimp only
      rw [h.opened_eq]
      generalize r.skipTo r.opened.length = o at hskip
      generalize r'.skipTo r.opened.length = o' at hskip
      cases hskip with
      | error he hs => exact ⟨congrArg Except.error he, hs⟩
      | ok _ hs => exact ⟨rfl, hs⟩

/-- Any requests. -/
theorem ReadsAs.outcomes_eq (h : ReadsAs r r') (qs : List Request) : r.outcomes qs = r'.outcomes qs := by
  induction qs generalizing r r' with
  | nil => rfl
  | cons q qs ih =>
      obtain ⟨houtcome, hbehind⟩ := h.answer q
      rw [outcomes, outcomes, houtcome, ih hbehind]

/-- Behind a comment the same is read as in front of it. -/
theorem outcomes_of_isComment {x rest : Text} (hx : IsComment x) (hr : r.cursor.rest = x ++ rest) (place : Position)
    (qs : List Request) : r.outcomes qs = { r with cursor := ⟨rest, place⟩ }.outcomes qs :=
  have hreads : ReadsAs r { r with cursor := ⟨rest, place⟩ } := ⟨⟨x, .inr hx, hr⟩, rfl, rfl⟩
  hreads.outcomes_eq qs

/-- **Comments are passed over, up to the first end of a comment.**  A reader in any state has come to a comment.
Whatever it is asked from there on, it replies, apart from places, as it would in the same state behind the
comment, unless the body begins with `>` or `->`.  In that case the comment ends there, and the replies are those
in front of what is left of the body and the `-->`. -/
theorem outcomes_comment (w behind : Text) (hw : IsBody w) (hr : r.cursor.rest = comment w ++ behind) :
    (¬ lit ">" <+: w → ¬ lit "->" <+: w → ∀ place qs,
      r.outcomes qs = { r with cursor := ⟨behind, place⟩ }.outcomes qs) ∧
    ∀ left, w = lit ">" ++ left ∨ w = lit "->" ++ left → ∀ place qs,
      r.outcomes qs = { r with cursor := ⟨left ++ (lit "-->" ++ behind), place⟩ }.outcomes qs := by
  refine ⟨?_, ?_⟩
  · intro hangle harrow
    exact outcomes_of_isComment (isComment_of_isBody hw hangle harrow) hr
  · rintro left (rfl | rfl)
    · have hx : IsComment (lit "<!-->") :=
        ⟨⟨lit ">", rfl⟩, ((Text.endsFirst_self _).cons (by decide)).cons (by decide)⟩
      apply outcomes_of_isComment hx
      rw [hr, comment, List.append_assoc, List.append_assoc, List.append_assoc]
      rfl
    · have hx : IsComment (lit "<!--->") :=
        ⟨⟨lit "->", rfl⟩, (((Text.endsFirst_self _).cons (by decide)).cons (by decide)).cons (by decide)⟩
      apply outcomes_of_isComment hx
      rw [hr, comment, List.append_assoc, List.append_assoc, List.append_assoc]
      rfl

/-- A comment with markup in it, behind a tag whose closing token is still owed. -/
theorem outcomes_comment_owed :
    let w := lit "-<g> - > "
    let behind := lit "<c a='1'/></g>"
    ∃ r, ((Session.ofText (lit "<g>x<b/>" ++ (comment w ++ behind))).askAll [.next, .next, .next]).reader = r ∧
      IsBody w ∧ r.cursor.rest = comment w ++ behind ∧ r.pending.isSome ∧
      ∀ qs, r.outcomes qs = { r with cursor := ⟨behind, .start⟩ }.outcomes qs := by
  intro w behind
  have hw : IsBody w := by decide +kernel
  obtain ⟨r, hrun⟩ :
      ∃ r, ((Session.ofText (lit "<g>x<b/>" ++ (comment w ++ behind))).askAll [.next, .next, .next]).reader = r :=
    ⟨_, rfl⟩
  have hr : r.cursor.rest = comment w ++ behind := by
    rw [← hrun]
    decide +kernel
  have howed : r.pending.isSome := by
    rw [← hrun]
    decide +kernel
  obtain ⟨hskip, -⟩ := outcomes_comment w behind hw hr
  exact ⟨r, hrun, hw, hr, howed, hskip (by decide) (by decide) .start⟩

/-- An element in a comment is read as one if the body of the comment begins with `>`. -/
theorem outcomes_comment_angle :
    let w := lit "><a/>"
    IsBody w ∧ (Reader.ofText (comment w ++ [])).outcomes [.next] = [.ok (some (.opening ⟨[], lit "a"⟩ []))] ∧
      (Reader.ofText []).outcomes [.next] = [.ok none] := by
  decide +kernel

end Reader

end Pictogram
