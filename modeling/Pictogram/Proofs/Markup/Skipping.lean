import Pictogram.Proofs.Markup.Progress
import Pictogram.Proofs.Markup.RoundTrip

/-! # Skipping an element

Skipping finds the end of an element by counting the elements that are open.  What keeps the count right is
`Reader.Inside`: as long as the element is not closed, the tokens read inside it leave unfinished exactly the elements
opened inside it, and these lie on top of it.  A token keeps this up or is the closing token of the element itself
(`Inside.next`), so the closing token that skipping stops at is that one, behind whole nodes (`Inside.of_skipTo`).  A
failure leaves the reader inside the element (`Inside.of_skipTo_error`). -/

namespace Pictogram

/-- A token inside an element closes it, or has its effect on the elements opened inside. -/
theorem Nests.inside {inner outer opened : List OpenElement} {e : OpenElement} {t : Token}
    (h : Nests (inner ++ e :: outer) t opened) :
    (inner = [] ∧ opened = outer ∧ ∃ closedAt, t = .closing e.name closedAt) ∨
      ∃ inner', opened = inner' ++ e :: outer ∧ Nests inner t inner' := by
  generalize hall : inner ++ e :: outer = all at h
  cases h with
  | opening e' attributes place =>
      subst hall
      exact .inr ⟨e' :: inner, rfl, .opening e' attributes place inner⟩
  | text content place =>
      subst hall
      exact .inr ⟨inner, rfl, .text content place inner⟩
  | closing e' place =>
      cases inner with
      | nil =>
          obtain ⟨rfl, rfl⟩ := List.cons.inj hall
          exact .inl ⟨rfl, rfl, place, rfl⟩
      | cons e'' inner =>
          obtain ⟨rfl, rfl⟩ := List.cons.inj hall
          exact .inr ⟨inner, rfl, .closing e'' place inner⟩

namespace Reader

/-! ### Inside an element -/

/-- Behind the tokens `ts` inside the element `e`, around which `outer` are open. -/
structure Inside (e : OpenElement) (outer : List OpenElement) (ts : List Token) (r : Reader) : Prop where
  settled : r.Settled
  unfinished : ∃ starts inner, Unfinished ts starts ∧ starts.map Prod.fst = inner.map OpenElement.name ∧
    r.opened = inner ++ e :: outer

variable {e : OpenElement} {outer : List OpenElement} {ts : List Token} {r r' s : Reader}

theorem inside_of_opened (hr : r.Settled) (ho : r.opened = e :: outer) : Inside e outer [] r where
  settled := hr
  unfinished := ⟨[], [], .whole [], rfl, ho⟩

/-- The next token closes the element, behind whole nodes, or stays inside. -/
theorem Inside.next {t : Token} (h : Inside e outer ts r) (hn : r.next = .ok (some t) s) :
    (s.opened = outer ∧ ∃ children closedAt, ts = Node.tokensAll children ∧ t = .closing e.name closedAt) ∨
      (outer.length < s.opened.length ∧ Inside e outer (ts ++ [t]) s) := by
  obtain ⟨hnests, hsettled⟩ := nests_of_next h.settled hn
  obtain ⟨starts, inner, hstarts, hnames, ho⟩ := h.unfinished
  rw [ho] at hnests
  rcases hnests.inside with ⟨rfl, houter, closedAt, rfl⟩ | ⟨inner', ho', hinner⟩
  · obtain rfl := List.map_eq_nil_iff.mp hnames
    cases hstarts with
    | whole children => exact .inl ⟨houter, children, closedAt, rfl, rfl⟩
  · obtain ⟨starts', hstarts', hnames'⟩ := hstarts.append_token hnames hinner
    refine .inr ⟨?_, hsettled, starts', inner', hstarts', hnames', ho'⟩
    rw [ho', List.length_append, List.length_cons]
    omega

/-- Skipping stops at the closing token of the element, behind whole nodes. -/
theorem Inside.of_skipTo (h : Inside e outer ts r) (hs : r.skipTo (outer.length + 1) = .ok () r') :
    ∃ us children closedAt, Yields r (us ++ [.closing e.name closedAt]) r' ∧ ts ++ us = Node.tokensAll children ∧
      r'.opened = outer := by
  generalize hdepth : outer.length + 1 = depth at hs
  fun_induction skipTo r depth generalizing ts with
  | case1 => cases hs
  | case2 => cases hs
  | case3 r t s hn _ hstop =>
      cases hs
      rcases h.next hn with ⟨houter, children, closedAt, rfl, rfl⟩ | ⟨hlt, -⟩
      · exact ⟨[], children, closedAt, .cons hn (.nil _), List.append_nil _, houter⟩
      · omega
  | case4 r t s hn _ hgo ih =>
      rcases h.next hn with ⟨houter, _, _, _, rfl⟩ | ⟨-, hinside⟩
      · exact absurd ⟨rfl, houter ▸ hdepth⟩ hgo
      · obtain ⟨us, children, closedAt, hyields, hchildren, houter⟩ := ih hinside hs
        rw [List.append_assoc] at hchildren
        exact ⟨t :: us, children, closedAt, .cons hn hyields, hchildren, houter⟩

/-- A failure to skip is that of a token, or the end of the text, inside the element. -/
theorem Inside.of_skipTo_error {error : CompileError} (h : Inside e outer ts r)
    (hs : r.skipTo (outer.length + 1) = .error error r') :
    ∃ us s, Yields r us s ∧ Inside e outer (ts ++ us) s ∧
      (s.next = .ok none r' ∧ error = r'.unexpectedEnd ∨ s.next = .error error r') := by
  generalize hdepth : outer.length + 1 = depth at hs
  fun_induction skipTo r depth generalizing ts with
  | case1 r error' s hn =>
      cases hs
      exact ⟨[], r, .nil r, (List.append_nil ts).symm ▸ h, .inr hn⟩
  | case2 r s hn =>
      cases hs
      exact ⟨[], r, .nil r, (List.append_nil ts).symm ▸ h, .inl ⟨hn, rfl⟩⟩
  | case3 => cases hs
  | case4 r t s hn _ hgo ih =>
      rcases h.next hn with ⟨houter, _, _, _, rfl⟩ | ⟨-, hinside⟩
      · exact absurd ⟨rfl, houter ▸ hdepth⟩ hgo
      · obtain ⟨us, s', hyields, hinside', hend⟩ := ih hinside hs
        rw [List.append_assoc] at hinside'
        exact ⟨t :: us, s', .cons hn hyields, hinside', hend⟩

/-! ### Replies -/

theorem answer_next_eq_token_iff {t : Token} : r.answer .next = (.token t, s) ↔ r.next = .ok (some t) s := by
  simp only [answer]
  split <;> simp_all

theorem answer_skip_eq_skipped_iff : r.answer .skip = (.skipped, s) ↔ r.skip = .ok () s := by
  simp only [answer]
  split <;> simp_all

theorem answer_skip_eq_failed_iff {error : CompileError} :
    r.answer .skip = (.failed error, s) ↔ r.skip = .error error s := by
  simp only [answer]
  split <;> simp_all

theorem rest_of_next_none (h : r.next = .ok none s) : s.cursor.rest = [] := by
  rw [next_of_pending_eq_none (eq_of_next_none h).2] at h
  exact rest_of_read_none h

theorem isMarkup_of_next_error {error : CompileError} (h : r.next = .error error s) : error.cause.code.isMarkup := by
  obtain ⟨f, p, rfl, hf, -⟩ := (fails_of_next h).located
  exact hf

end Reader

namespace Session

open Reader

theorem settled_askAll (text : Text) (qs : List Request) : ((ofText text).askAll qs).reader.Settled := by
  intro name place hp
  obtain ⟨e, outer, _, _, ho, he, -⟩ := (sound_askAll text qs).owed name place hp
  exact ⟨e, outer, ho, he⟩

/-- **Skipping takes exactly one element.**  Ask a reader anything, and then for a token, which is the opening token
of an element.  If skipping succeeds, it has read whole nodes and the closing token of that element.  The open elements
are those before the opening token, and the tokens that come next are those that follow the element.  If skipping fails,
then the tokens read leave the element unfinished, and there the text ends or is malformed. -/
theorem skip_askAll (text : Text) (qs : List Request) {name : ElementName} {attributes : Table} {place : Position}
    {r : Reader}
    (h : ((ofText text).askAll qs).reader.answer .next = (.token (.opening name attributes place), r)) :
    let before := ((ofText text).askAll qs).reader
    (∀ r', r.answer .skip = (.skipped, r') →
      ∃ children closedAt, Yields r (Node.tokensAll children ++ [.closing name closedAt]) r' ∧
        r'.opened = before.opened ∧
        before.drain = ((Node.element name attributes place closedAt children).tokens ++ r'.drain.1, r'.drain.2)) ∧
    ∀ error r', r.answer .skip = (.failed error, r') →
      ∃ ts s e, Yields r ts s ∧ e.name = name ∧ Inside e before.opened ts s ∧
        (s.next = .ok none r' ∧ r'.cursor.rest = [] ∧ error = r'.unexpectedEnd ∨
          s.next = .error error r' ∧
            (error.cause.code = .unexpectedEnd ∨ error.cause.code = .malformedMarkup)) := by
  intro before
  rw [answer_next_eq_token_iff] at h
  obtain ⟨hnests, hsettled⟩ := nests_of_next (settled_askAll text qs) h
  obtain ⟨e, rfl, ho⟩ := hnests.of_opening
  have hinside : Inside e before.opened [] r := inside_of_opened hsettled ho
  have hskip : r.skip = r.skipTo (before.opened.length + 1) := by rw [skip, ho, List.length_cons]
  refine ⟨?_, ?_⟩
  · intro r' hr'
    rw [answer_skip_eq_skipped_iff, hskip] at hr'
    obtain ⟨us, children, closedAt, hyields, hchildren, houter⟩ := hinside.of_skipTo hr'
    obtain rfl : us = Node.tokensAll children := hchildren
    have hall : Yields before (Node.element e.name attributes place closedAt children).tokens r' := by
      rw [Node.tokens]
      exact .cons h hyields
    exact ⟨children, closedAt, hyields, houter, drain_of_yields hall⟩
  · intro error r' hr'
    rw [answer_skip_eq_failed_iff, hskip] at hr'
    obtain ⟨us, s, hyields, hin, hend⟩ := hinside.of_skipTo_error hr'
    refine ⟨us, s, e, hyields, rfl, hin, ?_⟩
    rcases hend with ⟨hn, herror⟩ | hn
    · exact .inl ⟨hn, rest_of_next_none hn, herror⟩
    · exact .inr ⟨hn, FaultCode.isMarkup_iff.mp (isMarkup_of_next_error hn)⟩

/-- Elements of one name side by side and inside each other, with and without closing tags. -/
def sameNames : Text := lit "<g><g/><g a='1'>x<g/><!-- </g> --><g><g/></g></g>y</g>"

/-- The second element inside the outermost is skipped, as the first was. -/
theorem skip_askAll_sameNames :
    let before := ((ofText sameNames).askAll [.next, .next, .skip]).reader
    let r := (before.answer .next).2
    let r' := (r.answer .skip).2
    before.answer .next = (.token (.opening ⟨[], lit "g"⟩ ⟨[(lit "a", lit "1")]⟩ ⟨1, 8⟩), r) ∧
      r.answer .skip = (.skipped, r') ∧
      ∃ children closedAt, Yields r (Node.tokensAll children ++ [.closing ⟨[], lit "g"⟩ closedAt]) r' ∧
        r'.opened = before.opened := by
  intro before r r'
  have hopening : before.answer .next = (.token (.opening ⟨[], lit "g"⟩ ⟨[(lit "a", lit "1")]⟩ ⟨1, 8⟩), r) := by
    decide +kernel
  have hskipped : r.answer .skip = (.skipped, r') := by decide +kernel
  obtain ⟨children, closedAt, hyields, ho, -⟩ := (skip_askAll sameNames _ hopening).1 r' hskipped
  exact ⟨hopening, hskipped, children, closedAt, hyields, ho⟩

end Session
end Pictogram
