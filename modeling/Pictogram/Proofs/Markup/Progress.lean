import Pictogram.Proofs.Markup.Session

/-! # Reading makes progress

A reader that owes no closing token either is asked at the end of its text, or moves on, whether it
yields a token or fails.  So every reply but that of the end lowers the budget of the reader
(`budget_answer_lt`), and a reader that is asked again and again comes to the end of a text of `n` units
within `2 * n` calls and stays there (`progress_askAll`).

Skipping asks for tokens in a loop; `Reader.skipWithin` is that loop cut off after a number of calls.  It
comes to an end within the budget of the reader, in every state (`skipWithin_eq_skipTo`). -/

namespace Pictogram

namespace Cursor

theorem Reaches.length_rest_le {c d : Cursor} (h : c.Reaches d) : d.rest.length ≤ c.rest.length := by
  obtain ⟨t, ht⟩ := h
  have hlength := congrArg List.length ht.rest_eq
  rw [List.length_append] at hlength
  omega

/-- What lies behind the next unit lies strictly further on. -/
theorem Reaches.length_rest_lt {c d : Cursor} {n : Nat} (h : (c.advance (n + 1)).Reaches d) (hc : c.rest ≠ []) :
    d.rest.length < c.rest.length := by
  have hle := h.length_rest_le
  have hpos := List.length_pos_iff.mpr hc
  rw [length_rest_advance] at hle
  omega

/-- A text that lies between two cursors is not empty if the second one has less left. -/
theorem Reaches.exists_passes {c d : Cursor} (h : c.Reaches d) (hlt : d.rest.length < c.rest.length) :
    ∃ passed, passed ≠ [] ∧ c.Passes passed d := by
  obtain ⟨passed, hpassed⟩ := h
  refine ⟨passed, ?_, hpassed⟩
  rintro rfl
  rw [hpassed.rest_eq, List.nil_append] at hlt
  exact Nat.lt_irrefl _ hlt

theorem reaches_of_readPast_error {c d : Cursor} {stop : Text} {enclosure : Enclosure} {e : CompileError}
    (h : c.readPast stop enclosure = .error e d) : d = c.toEnd := by
  unfold readPast at h
  split at h
  · cases h
  · cases h
    rfl

theorem reaches_of_readDeclaration_error {c d : Cursor} {e : CompileError}
    (h : c.readDeclaration = .error e d) : d = c.toEnd := by
  unfold readDeclaration at h
  split at h
  · cases h
  · cases h
    rfl

theorem length_rest_toEnd_lt {c : Cursor} (hc : c.rest ≠ []) : c.toEnd.rest.length < c.rest.length := by
  have hpos := List.length_pos_iff.mpr hc
  rw [toEnd, length_rest_advance]
  omega

end Cursor

/-! ### Failures move on -/

namespace Tag

open Cursor

theorem reaches_of_readOpening_error {ended : Fault} {c d : Cursor} {e : CompileError}
    (hended : ended.code.isMarkup) (h : readOpening ended c = .error e d) : (c.advance 1).Reaches d := by
  have hname := (Reaches.refl (c.advance 1)).name
  unfold readOpening at h
  dsimp only at h
  split at h
  · cases h
    exact hname
  · have hattributes := goes_readAttributes (c.advance 1).name.1 .empty hended hname
    split at h
    · next ha =>
      cases h
      rw [ha] at hattributes
      cases hattributes with
      | error _ _ hd => exact hd
    · next ha =>
      have hbracket := goes_readBracket (c.advance 1).name.1 (ha ▸ hattributes).reaches
      split at h
      · next hb =>
        cases h
        rw [hb] at hbracket
        cases hbracket with
        | error _ _ hd => exact hd
      · cases h

theorem reaches_of_readClosing_error {ended : Fault} {c d : Cursor} {e : CompileError}
    (h : readClosing ended c = .error e d) : (c.advance 2).Reaches d := by
  have hname := (Reaches.refl (c.advance 2)).name.skipBlanks
  unfold readClosing at h
  dsimp only at h
  split at h
  · cases h
    exact hname
  · split at h <;> cases h
    exact hname

end Tag

namespace Reader

/-- Text that is no markup is not empty. -/
theorem length_rest_takeText_lt {r : Reader} (hr : r.cursor.rest ≠ [])
    (hk : Construct.ofText r.cursor.rest = .text) :
    (r.cursor.takeWhile (· ≠ unit '<')).2.rest.length < r.cursor.rest.length := by
  obtain ⟨u, t, hrest⟩ := List.exists_cons_of_ne_nil hr
  have hu := ne_of_ofText_eq_text (hrest ▸ hk)
  have hpos : 0 < (r.cursor.takeWhile (· ≠ unit '<')).1.length := by simp [Cursor.takeWhile, hrest, hu]
  have hlength := r.cursor.length_rest_takeWhile (· ≠ unit '<')
  have hle := r.cursor.length_takeWhile_le (· ≠ unit '<')
  omega

/-- A construct that cannot be read moves the cursor on. -/
theorem length_rest_step_error_lt {r s : Reader} {e : CompileError} (hr : r.cursor.rest ≠ [])
    (h : r.step = .error e s) : s.cursor.rest.length < r.cursor.rest.length := by
  have hended := Fault.isMarkup_unexpectedEnd r.opened
  simp only [step] at h
  split at h
  · rcases lift_eq_error h with ⟨c, hc, rfl⟩ | ⟨_, _, _, ⟨⟩⟩
    rw [Cursor.reaches_of_readPast_error hc]
    exact Cursor.length_rest_toEnd_lt hr
  · rcases lift_eq_error h with ⟨c, hc, rfl⟩ | ⟨_, _, _, ⟨⟩⟩
    rw [Cursor.reaches_of_readPast_error hc]
    exact Cursor.length_rest_toEnd_lt hr
  · rcases lift_eq_error h with ⟨c, hc, rfl⟩ | ⟨_, _, _, ⟨⟩⟩
    rw [Cursor.reaches_of_readPast_error hc]
    exact ((Cursor.Reaches.refl (r.cursor.advance 9)).toEnd).length_rest_lt hr
  · rcases lift_eq_error h with ⟨c, hc, rfl⟩ | ⟨_, _, _, ⟨⟩⟩
    rw [Cursor.reaches_of_readDeclaration_error hc]
    exact Cursor.length_rest_toEnd_lt hr
  · rcases lift_eq_error h with ⟨c, hc, rfl⟩ | ⟨written, c, hc, hleave⟩
    · exact (Tag.reaches_of_readClosing_error hc).length_rest_lt hr
    · have hcursor : s.cursor = c := by
        unfold leave at hleave
        split at hleave
        · cases hleave
          rfl
        · split at hleave <;> cases hleave
          rfl
      rw [hcursor]
      exact Tag.length_rest_readClosing_lt hr hc
  · rcases lift_eq_error h with ⟨c, hc, rfl⟩ | ⟨_, _, _, henter⟩
    · exact (Tag.reaches_of_readOpening_error hended hc).length_rest_lt hr
    · cases henter
  · next hk =>
    simp only [readText] at h
    split at h <;> cases h
    exact length_rest_takeText_lt hr hk

theorem length_rest_read_error_lt {r s : Reader} {e : CompileError} (h : r.read = .error e s) :
    s.cursor.rest.length < r.cursor.rest.length := by
  fun_induction read r with
  | case1 => cases h
  | case2 r hr e' s' hs =>
      cases h
      exact length_rest_step_error_lt hr hs
  | case3 => cases h
  | case4 r hr s' hs hlt ih => exact Nat.lt_trans (ih h) hlt

/-- Nothing is left where there are no more tokens. -/
theorem rest_of_read_none {r s : Reader} (h : r.read = .ok none s) : s.cursor.rest = [] := by
  fun_induction read r with
  | case1 r hr =>
      cases h
      exact hr
  | case2 => cases h
  | case3 => cases h
  | case4 r hr s' hs _ ih => exact ih h

theorem next_of_pending_eq_none {r : Reader} (h : r.pending = none) : r.next = r.read := by
  unfold next
  rw [h]

/-! ### One call -/

/-- A call for a token that delivers no owed token comes to the end of the text or moves on. -/
theorem answer_next_of_pending_eq_none {r : Reader} (h : r.pending = none) :
    ((r.answer .next).1 = .ended ∧ (r.answer .next).2.cursor.rest = []) ∨
      ((r.answer .next).1 ≠ .ended ∧ (r.answer .next).2.cursor.rest.length < r.cursor.rest.length) := by
  unfold answer
  rw [next_of_pending_eq_none h]
  dsimp only
  split
  · next t s hn => exact .inr ⟨by rintro ⟨⟩, length_rest_read_lt hn⟩
  · next s hn => exact .inl ⟨rfl, rest_of_read_none hn⟩
  · next e s hn => exact .inr ⟨by rintro ⟨⟩, length_rest_read_error_lt hn⟩

theorem reaches_answer_next (r : Reader) : r.cursor.Reaches (r.answer .next).2.cursor := by
  unfold answer
  dsimp only
  split
  · next hn => exact reaches_of_next hn
  · next hn => exact reaches_of_next hn
  · next hn => exact (fails_of_next hn).reaches

/-- Every reply to a call for a token, that of the end apart, lowers the budget. -/
theorem budget_answer_lt {r : Reader} (h : (r.answer .next).1 ≠ .ended) :
    (r.answer .next).2.budget < r.budget := by
  unfold answer at h ⊢
  dsimp only at h ⊢
  split at h
  · next hn => exact budget_lt_of_next hn
  · exact absurd rfl h
  · next e s hn =>
    have hpending := pending_of_next_error hn
    have hr : r.pending = none := by
      rw [(fails_of_next hn).reader_eq] at hpending
      exact hpending
    rw [next_of_pending_eq_none hr] at hn
    have hlt := length_rest_read_error_lt hn
    simp only [budget, hpending, hr]
    omega

/-- A reader that has come to the end of its text stays as it is. -/
theorem answer_answer_of_ended {r : Reader} (h : (r.answer .next).1 = .ended) :
    ((r.answer .next).2).answer .next = (.ended, (r.answer .next).2) := by
  have hn : ∃ s, r.next = .ok none s ∧ (r.answer .next).2 = s := by
    unfold answer at h ⊢
    dsimp only at h ⊢
    split at h
    · cases h
    · next s hn => exact ⟨s, hn, rfl⟩
    · cases h
  obtain ⟨s, hn, hs⟩ := hn
  have hpending := pending_of_next_none hn
  rw [next_of_pending_eq_none (eq_of_next_none hn).2] at hn
  have hnext : s.next = .ok none s := by
    rw [next_of_pending_eq_none hpending, read, dif_pos (rest_of_read_none hn)]
  rw [hs]
  unfold answer
  rw [hnext]

/-! ### Skipping -/

/-- The loop of `skipTo`, cut off after a number of calls for a token. -/
def skipWithin (r : Reader) (depth : Nat) : (calls : Nat) → Option (Outcome Reader Unit)
  | 0 => none
  | calls + 1 =>
    match r.next with
    | .error e s => some (.error e s)
    | .ok none s => some (.error s.unexpectedEnd s)
    | .ok (some t) s =>
      if t.isClosing ∧ s.opened.length + 1 = depth then some (.ok () s) else s.skipWithin depth calls

theorem skipTo_of_next_error {r s : Reader} {e : CompileError} (depth : Nat) (h : r.next = .error e s) :
    r.skipTo depth = .error e s := by
  rw [skipTo]
  split <;> simp_all

theorem skipTo_of_next_none {r s : Reader} (depth : Nat) (h : r.next = .ok none s) :
    r.skipTo depth = .error s.unexpectedEnd s := by
  rw [skipTo]
  split <;> simp_all

/-- Skipping comes to an end within the budget. -/
theorem skipWithin_eq_skipTo {r : Reader} {depth calls : Nat} (h : r.budget < calls) :
    r.skipWithin depth calls = some (r.skipTo depth) := by
  induction calls generalizing r with
  | zero => exact absurd h (Nat.not_lt_zero _)
  | succ calls ih =>
      rw [skipWithin]
      cases hn : r.next with
      | error e s => rw [skipTo_of_next_error depth hn]
      | ok t s =>
          cases t with
          | none => rw [skipTo_of_next_none depth hn]
          | some t =>
              have hlt := budget_lt_of_next hn
              rw [skipTo_of_next depth hn, apply_ite some, ← ih (r := s) (by omega)]

theorem skipTo_zero_ne_ok (r s : Reader) : r.skipTo 0 ≠ .ok () s := by
  intro h
  generalize hdepth : 0 = depth at h
  fun_induction skipTo r depth with
  | case1 => cases h
  | case2 => cases h
  | case3 r t s' _ _ hc => omega
  | case4 r t s' _ _ _ ih => exact ih h

end Reader

/-! ### Sessions -/

namespace Session

theorem budget_le_of_sound {text : Text} {s : Session} (h : s.Sound text) : s.reader.budget ≤ 2 * text.length := by
  have hlength : s.reader.cursor.rest.length ≤ text.length := h.reaches.length_rest_le
  unfold Reader.budget
  cases hp : s.reader.pending with
  | none =>
      simp only [Option.isSome_none, Bool.false_eq_true, if_false]
      omega
  | some owed =>
      obtain ⟨_, _, _, before, -, -, -, hbefore⟩ := h.owed owed.1 owed.2 hp
      have htext := congrArg List.length hbefore
      have hbracket : (lit "/>").length = 2 := rfl
      simp only [List.length_append, hbracket] at htext
      simp only [Option.isSome_some, if_true]
      omega

theorem askAll_cons (s : Session) (q : Request) (qs : List Request) :
    s.askAll (q :: qs) = (s.ask q).askAll qs := rfl

/-- A session at the end of its text gets that reply again and again, and stays as it is. -/
theorem askAll_of_ended {s : Session} (h : s.reader.answer .next = (.ended, s.reader)) (m : Nat) :
    s.askAll (.replicate m .next) = ⟨s.reader, s.replies ++ .replicate m .ended⟩ := by
  induction m generalizing s with
  | zero => simp [askAll]
  | succ m ih =>
      have hask : s.ask .next = ⟨s.reader, s.replies ++ [.ended]⟩ := by rw [ask, h]
      rw [List.replicate_succ, askAll_cons, hask, ih (s := ⟨s.reader, s.replies ++ [Reply.ended]⟩) h]
      simp [List.replicate_succ]

/-- A session in which tokens are asked for comes to the end of the text within the budget of its reader. -/
theorem exists_ended (s : Session) :
    ∃ front last, front.length ≤ s.reader.budget ∧ .ended ∉ front ∧
      ∀ m, s.askAll (.replicate (front.length + 1 + m) .next) =
        ⟨last, s.replies ++ front ++ .replicate (m + 1) .ended⟩ := by
  induction hb : s.reader.budget using Nat.strongRecOn generalizing s with
  | ind b ih =>
      by_cases hended : (s.reader.answer .next).1 = .ended
      · refine ⟨[], (s.reader.answer .next).2, Nat.zero_le _, by simp, ?_⟩
        intro m
        have hfirst : s.ask .next = ⟨(s.reader.answer .next).2, s.replies ++ [.ended]⟩ := by rw [ask, hended]
        have hstay := askAll_of_ended (s := s.ask .next) (by rw [hfirst]; exact Reader.answer_answer_of_ended hended) m
        rw [List.length_nil, Nat.zero_add, Nat.add_comm 1 m, List.replicate_succ, askAll_cons, hstay, hfirst]
        simp [List.replicate_succ]
      · have hlt := Reader.budget_answer_lt hended
        obtain ⟨front, last, hfront, hmem, hall⟩ := ih _ (by rw [← hb]; exact hlt) (s.ask .next) rfl
        have hbudget : (s.ask .next).reader.budget < s.reader.budget := hlt
        refine ⟨(s.reader.answer .next).1 :: front, last, ?_, ?_, ?_⟩
        · rw [List.length_cons]
          omega
        · rw [List.mem_cons]
          rintro (h | h)
          · exact hended h.symm
          · exact hmem h
        · intro m
          rw [List.length_cons, show front.length + 1 + 1 + m = front.length + 1 + m + 1 by omega, List.replicate_succ,
            askAll_cons, hall m]
          simp [ask]

/-- **Reading makes progress, whatever fails.**  After any requests, a call for a token that delivers no
owed closing token either is told the end with nothing left of the text, or passes a text that is not
empty.  So at most `2 * n` calls come before the first reply of the end, on a text of `n` units; all
calls behind it get that reply again and leave the reader as it is.  Skipping ends within `2 * n + 1`
calls, and outside all elements it fails. -/
theorem progress_askAll (text : Text) (qs : List Request) :
    let s := (ofText text).askAll qs
    (s.reader.pending = none →
      ((s.reader.answer .next).1 = .ended ∧ (s.reader.answer .next).2.cursor.rest = []) ∨
      ((s.reader.answer .next).1 ≠ .ended ∧ ∃ consumed passed, passed ≠ [] ∧
        text = consumed ++ s.reader.cursor.rest ∧
        s.reader.cursor.rest = passed ++ (s.reader.answer .next).2.cursor.rest)) ∧
    (∃ front last, front.length ≤ 2 * text.length ∧ .ended ∉ front ∧
      ∀ m, s.askAll (.replicate (front.length + 1 + m) .next) =
        ⟨last, s.replies ++ front ++ .replicate (m + 1) .ended⟩) ∧
    (∃ calls, calls ≤ 2 * text.length + 1 ∧
      s.reader.skipWithin s.reader.opened.length calls = some s.reader.skip) ∧
    (s.reader.opened = [] → ∃ e r, s.reader.skip = .error e r) := by
  intro s
  have hsound : s.Sound text := sound_askAll text qs
  have hbudget := budget_le_of_sound hsound
  refine ⟨?_, ?_, ?_, ?_⟩
  · intro hp
    rcases Reader.answer_next_of_pending_eq_none hp with h | ⟨h, hlt⟩
    · exact .inl h
    · obtain ⟨consumed, hconsumed⟩ := hsound.reaches
      obtain ⟨passed, hne, hpassed⟩ := (Reader.reaches_answer_next s.reader).exists_passes hlt
      exact .inr ⟨h, consumed, passed, hne, hconsumed.rest_eq, hpassed.rest_eq⟩
  · obtain ⟨front, last, hfront, hmem, hall⟩ := exists_ended s
    exact ⟨front, last, Nat.le_trans hfront hbudget, hmem, hall⟩
  · exact ⟨s.reader.budget + 1, by omega, Reader.skipWithin_eq_skipTo (Nat.lt_succ_self _)⟩
  · intro hopened
    cases hskip : s.reader.skip with
    | error e r => exact ⟨e, r, rfl⟩
    | ok _ r =>
        rw [Reader.skip, hopened] at hskip
        exact absurd hskip (Reader.skipTo_zero_ne_ok _ _)

end Session
end Pictogram
