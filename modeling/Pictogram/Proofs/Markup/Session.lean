import Mathlib.Data.List.DropRight
import Pictogram.Proofs.Markup.Extent
import Pictogram.Proofs.Markup.Tree

/-! # Sessions with a reader

A session is a reader that is asked for tokens, or to skip to the end of an element, again and again, and
the replies so far.  It goes on after a failure.

Whatever is asked, the place of the reader is that of the text it has consumed, and a token carries the
place where its construct begins (`place_askAll`).  If only tokens are asked for, those returned are the
beginning of a well-nested sequence, and the elements that it leaves unfinished are the open ones of the
reader (`nested_askAll`). -/

namespace Pictogram

/-! ### Requests and replies -/

inductive Request where
  | next
  | skip
deriving DecidableEq, Repr

inductive Reply where
  | token (t : Token)
  /-- There are no more tokens. -/
  | ended
  /-- The end of the element is passed. -/
  | skipped
  | failed (e : CompileError)
deriving DecidableEq, Repr

namespace Reply

def token? : Reply → Option Token
  | token t => some t
  | _ => none

end Reply

/-- The reply to a request, and the reader after it. -/
def Reader.answer (r : Reader) : Request → Reply × Reader
  | .next =>
    match r.next with
    | .ok (some t) s => (.token t, s)
    | .ok none s => (.ended, s)
    | .error e s => (.failed e, s)
  | .skip =>
    match r.skip with
    | .ok _ s => (.skipped, s)
    | .error e s => (.failed e, s)

structure Session where
  reader : Reader
  replies : List Reply

namespace Session

def ofText (text : Text) : Session := ⟨.ofText text, []⟩

def ask (s : Session) (q : Request) : Session := ⟨(s.reader.answer q).2, s.replies ++ [(s.reader.answer q).1]⟩

def askAll (s : Session) (qs : List Request) : Session := qs.foldl ask s

/-- The tokens returned so far. -/
def tokens (s : Session) : List Token := s.replies.filterMap Reply.token?

theorem tokens_concat (r : Reader) (replies : List Reply) (a : Reply) :
    tokens ⟨r, replies ++ [a]⟩ = replies.filterMap Reply.token? ++ a.token?.toList := by
  cases a <;> simp [tokens, Reply.token?]

theorem askAll_induction {I : Session → Prop} {s : Session} {qs : List Request} (h : I s)
    (hstep : ∀ s, ∀ q ∈ qs, I s → I (s.ask q)) : I (s.askAll qs) := by
  induction qs generalizing s with
  | nil => exact h
  | cons q qs ih =>
      apply ih
      · exact hstep s q (by simp) h
      · intro s' q' hq'
        exact hstep s' q' (by simp [hq'])

end Session

/-! ### What is owed -/

namespace Reader

theorem pending_of_next_error {r s : Reader} {e : CompileError} (h : r.next = .error e s) : s.pending = none := by
  have hr : r.pending = none := by
    unfold next at h
    split at h
    · cases h
    · assumption
  rw [(fails_of_next h).reader_eq]
  exact hr

theorem pending_of_next_none {r s : Reader} (h : r.next = .ok none s) : s.pending = none := by
  rw [(eq_of_next_none h).1]
  exact (eq_of_next_none h).2

/-- A closing token is owed only right after the opening token of a tag that ends in `/>`. -/
theorem opening_of_pending {r s : Reader} {t : Token} {name : ElementName} {place : Position}
    (h : r.next = .ok (some t) s) (hs : s.pending = some (name, place)) :
    ∃ e attributes passed, t = .opening name attributes place ∧ e.name = name ∧ s.opened = e :: r.opened ∧
      r.cursor.Passes (passed ++ lit "/>") s.cursor := by
  rcases next_cases h with ⟨_, _, -, -, rfl⟩ | ⟨-, pieces, d, construct, -, hpieces, hconstruct, hwritten, -⟩
  · cases hs
  · rw [hs] at hwritten
    obtain ⟨e, attributes, front, rfl, he, ho, rfl⟩ := hwritten.of_owed
    refine ⟨e, attributes, pieces.flatten ++ front, rfl, he, ho, ?_⟩
    rw [List.append_assoc]
    exact hpieces.trans hconstruct

theorem pending_of_closing {r s : Reader} {t : Token} (ht : t.isClosing) (h : r.next = .ok (some t) s) :
    s.pending = none := by
  cases hs : s.pending with
  | none => rfl
  | some owed =>
      obtain ⟨_, _, _, rfl, -⟩ := opening_of_pending h hs
      cases ht

theorem pending_of_skipTo {r s : Reader} {depth : Nat} (h : r.skipTo depth = .ok () s) : s.pending = none := by
  fun_induction skipTo r depth with
  | case1 => cases h
  | case2 => cases h
  | case3 r t s' hn _ hc =>
      cases h
      exact pending_of_closing hc.1 hn
  | case4 r t s' _ _ _ ih => exact ih h

theorem pending_of_skipTo_error {r s : Reader} {depth : Nat} {e : CompileError}
    (h : r.skipTo depth = .error e s) : s.pending = none := by
  fun_induction skipTo r depth with
  | case1 r e' s' hn =>
      cases h
      exact pending_of_next_error hn
  | case2 r s' hn =>
      cases h
      exact pending_of_next_none hn
  | case3 => cases h
  | case4 r t s' _ _ _ ih => exact ih h

end Reader

/-! ### Sessions of any kind -/

namespace Session

/-- What holds in a session on `text`: the reader has moved on through the text, and if it owes a closing
token then its last reply was the opening token of that element, whose tag ends in `/>` at the cursor. -/
structure Sound (text : Text) (s : Session) : Prop where
  reaches : (Cursor.ofText text).Reaches s.reader.cursor
  owed : ∀ name place, s.reader.pending = some (name, place) →
    ∃ e outer attributes before, s.reader.opened = e :: outer ∧ e.name = name ∧
      s.replies.getLast? = some (.token (.opening name attributes place)) ∧
      text = before ++ (lit "/>" ++ s.reader.cursor.rest)

theorem sound_ofText (text : Text) : (ofText text).Sound text where
  reaches := .refl _
  owed _ _ h := by cases h

theorem sound_of_pending_eq_none {text : Text} {s : Session}
    (hreaches : (Cursor.ofText text).Reaches s.reader.cursor) (hp : s.reader.pending = none) : s.Sound text where
  reaches := hreaches
  owed _ _ h := by
    rw [hp] at h
    cases h

theorem Sound.ask {text : Text} {s : Session} (h : s.Sound text) (q : Request) : (s.ask q).Sound text := by
  unfold Session.ask
  cases q with
  | next =>
      simp only [Reader.answer]
      split
      · next t r hn =>
        have hreaches := h.reaches.trans (Reader.reaches_of_next hn)
        refine ⟨hreaches, ?_⟩
        intro name place hp
        obtain ⟨e, attributes, passed, rfl, he, ho, hpasses⟩ := Reader.opening_of_pending hn hp
        obtain ⟨before, hbefore⟩ := h.reaches
        refine ⟨e, s.reader.opened, attributes, before ++ passed, ho, he, by simp, ?_⟩
        have := (hbefore.trans hpasses).rest_eq
        simpa [Cursor.ofText] using this
      · next r hn =>
        exact sound_of_pending_eq_none (h.reaches.trans (Reader.reaches_of_next hn)) (Reader.pending_of_next_none hn)
      · next e r hn =>
        exact sound_of_pending_eq_none (h.reaches.trans (Reader.fails_of_next hn).reaches)
          (Reader.pending_of_next_error hn)
  | skip =>
      simp only [Reader.answer]
      split
      · next r hs =>
        exact sound_of_pending_eq_none (h.reaches.trans (Reader.reaches_of_skipTo hs)) (Reader.pending_of_skipTo hs)
      · next e r hs =>
        exact sound_of_pending_eq_none (h.reaches.trans (Reader.located_of_skipTo hs).1)
          (Reader.pending_of_skipTo_error hs)

theorem sound_askAll (text : Text) (qs : List Request) : ((ofText text).askAll qs).Sound text :=
  askAll_induction (sound_ofText text) (fun _ q _ h => h.ask q)

end Session

/-! ### Places -/

namespace Position

/-- The place behind a text: its line feeds count the lines, and the units since the last one the columns. -/
def behind (t : Text) : Position :=
  ⟨1 + t.count (unit '\n'), 1 + (t.rtakeWhile (· ≠ unit '\n')).length⟩

theorem start_after (t : Text) : start.after t = behind t := by
  induction t using List.reverseRecOn with
  | nil => rfl
  | append_singleton t u ih =>
      rw [after_append, ih]
      show (behind t).next u = behind (t ++ [u])
      unfold next behind
      by_cases hu : u = unit '\n'
      · rw [if_pos hu]
        simp [hu]
        omega
      · rw [if_neg hu]
        simp [hu]
        omega

end Position

namespace Session

/-- **Places are exact.**  After any requests, the place of the reader is that behind the text it has
consumed.  If a token is returned next, then either it is written behind skipped constructs and carries
the place behind them, where its own construct begins; or it closes a tag that ends in `/>`, which was
returned last, and carries the place of that tag. -/
theorem place_askAll (text : Text) (qs : List Request) :
    let s := (ofText text).askAll qs
    ∃ consumed, text = consumed ++ s.reader.cursor.rest ∧ s.reader.cursor.position = .behind consumed ∧
      ∀ t r, s.reader.next = .ok (some t) r →
        (∃ pieces construct, (∀ piece ∈ pieces, Skipped piece) ∧
          text = consumed ++ (List.flatten pieces ++ (construct ++ r.cursor.rest)) ∧
          Written s.reader.opened t construct r.cursor.rest r.opened r.pending ∧
          t.position = .behind (consumed ++ List.flatten pieces)) ∨
        ∃ name attributes place, t = .closing name place ∧ r.cursor = s.reader.cursor ∧
          s.replies.getLast? = some (.token (.opening name attributes place)) ∧ lit "/>" <:+ consumed := by
  intro s
  have hsound : s.Sound text := sound_askAll text qs
  obtain ⟨consumed, hconsumed⟩ := hsound.reaches
  refine ⟨consumed, hconsumed.rest_eq, hconsumed.position_eq.trans (Position.start_after consumed), ?_⟩
  intro t r hn
  rcases Reader.next_cases hn with ⟨name, place, hp, rfl, rfl⟩ | ⟨-, pieces, d, construct, hall, hpieces, hconstruct, hw, ht⟩
  · obtain ⟨e, outer, attributes, before, -, -, hlast, hbefore⟩ := hsound.owed name place hp
    refine .inr ⟨name, attributes, place, rfl, rfl, hlast, before, ?_⟩
    have hsplit := hconsumed.rest_eq.symm.trans hbefore
    rw [← List.append_assoc] at hsplit
    exact (List.append_cancel_right hsplit).symm
  · have hbegin := hconsumed.trans hpieces
    refine .inl ⟨pieces, construct, hall, ?_, hw, ?_⟩
    · rw [← List.append_assoc, ← hconstruct.rest_eq]
      exact hbegin.rest_eq
    · rw [ht, hbegin.position_eq]
      exact Position.start_after _

end Session

/-! ### Nesting -/

namespace Node

theorem tokensAll_append (ns ns' : List Node) : tokensAll (ns ++ ns') = tokensAll ns ++ tokensAll ns' := by
  induction ns with
  | nil => rfl
  | cons n ns ih => rw [List.cons_append, tokensAll, tokensAll, ih, List.append_assoc]

theorem tokensAll_singleton (n : Node) : tokensAll [n] = n.tokens := by
  rw [tokensAll, tokensAll, List.append_nil]

end Node

/-- Tokens that leave the elements of `starts` unfinished, innermost first: whole nodes, and for each such
element its opening token and the whole nodes behind it. -/
inductive Unfinished : List Token → (starts : List (ElementName × Table × Position)) → Prop
  | whole (ns : List Node) : Unfinished (Node.tokensAll ns) []
  | inside {ts : List Token} {starts : List (ElementName × Table × Position)} (name : ElementName)
      (attributes : Table) (place : Position) (ns : List Node) : Unfinished ts starts →
      Unfinished (ts ++ .opening name attributes place :: Node.tokensAll ns) ((name, attributes, place) :: starts)

namespace Unfinished

variable {ts : List Token} {starts : List (ElementName × Table × Position)}

theorem append_node (h : Unfinished ts starts) (n : Node) : Unfinished (ts ++ n.tokens) starts := by
  cases h with
  | whole ns =>
      rw [← Node.tokensAll_singleton, ← Node.tokensAll_append]
      exact .whole _
  | inside name attributes place ns h =>
      rw [List.append_assoc, List.cons_append, ← Node.tokensAll_singleton, ← Node.tokensAll_append]
      exact .inside name attributes place _ h

/-- A closing token finishes the innermost element. -/
theorem append_closing {start : ElementName × Table × Position} (h : Unfinished ts (start :: starts))
    (closedAt : Position) : Unfinished (ts ++ [.closing start.1 closedAt]) starts := by
  cases h with
  | @inside ts starts name attributes place ns h =>
      have hnode := h.append_node (.element name attributes place closedAt ns)
      rw [Node.tokens] at hnode
      rw [List.append_assoc]
      exact hnode

/-- Every token that nests is taken in. -/
theorem append_token {opened opened' : List OpenElement} {t : Token} (h : Unfinished ts starts)
    (hs : starts.map Prod.fst = opened.map OpenElement.name) (ht : Nests opened t opened') :
    ∃ starts', Unfinished (ts ++ [t]) starts' ∧ starts'.map Prod.fst = opened'.map OpenElement.name := by
  cases ht with
  | opening e attributes place =>
      refine ⟨(e.name, attributes, place) :: starts, .inside e.name attributes place [] h, ?_⟩
      rw [List.map_cons, List.map_cons, hs]
  | closing e place =>
      rw [List.map_cons] at hs
      obtain ⟨start, starts, rfl, hname, hs⟩ := List.map_eq_cons_iff.mp hs
      rw [← hname]
      exact ⟨starts, h.append_closing place, hs⟩
  | text content place => exact ⟨starts, h.append_node (.text content place), hs⟩

/-- Closing what is unfinished, innermost first, gives whole nodes. -/
theorem exists_completion (h : Unfinished ts starts) (closedAt : Position) :
    ∃ ns, ts ++ starts.map (fun start => .closing start.1 closedAt) = Node.tokensAll ns := by
  induction starts generalizing ts with
  | nil =>
      cases h with
      | whole ns => exact ⟨ns, List.append_nil _⟩
  | cons start starts ih =>
      obtain ⟨ns, hns⟩ := ih (h.append_closing closedAt)
      refine ⟨ns, ?_⟩
      rw [← hns, List.map_cons, List.append_assoc]
      rfl

end Unfinished

namespace Session

/-- What holds in a session in which only tokens are asked for. -/
structure Nested (s : Session) : Prop where
  settled : s.reader.Settled
  unfinished : ∃ starts, Unfinished s.tokens starts ∧ starts.map Prod.fst = s.reader.opened.map OpenElement.name

theorem nested_ofText (text : Text) : (ofText text).Nested where
  settled := Reader.settled_ofText text
  unfinished := ⟨[], .whole [], rfl⟩

theorem Nested.ask_next {s : Session} (h : s.Nested) : (s.ask .next).Nested := by
  obtain ⟨starts, hstarts, hnames⟩ := h.unfinished
  unfold ask
  simp only [Reader.answer]
  split
  · next t r hn =>
    obtain ⟨hnests, hsettled⟩ := Reader.nests_of_next h.settled hn
    refine ⟨hsettled, ?_⟩
    rw [tokens_concat]
    exact hstarts.append_token hnames hnests
  · next r hn =>
    refine ⟨Reader.settled_of_pending_eq_none (Reader.pending_of_next_none hn), starts, ?_, ?_⟩
    · rw [tokens_concat]
      exact (List.append_nil s.tokens).symm ▸ hstarts
    · rw [(Reader.eq_of_next_none hn).1]
      exact hnames
  · next e r hn =>
    refine ⟨Reader.settled_of_pending_eq_none (Reader.pending_of_next_error hn), starts, ?_, ?_⟩
    · rw [tokens_concat]
      exact (List.append_nil s.tokens).symm ▸ hstarts
    · rw [(Reader.fails_of_next hn).reader_eq]
      exact hnames

/-- **Tokens nest, whatever fails.**  After any number of calls for a token, those returned leave
unfinished exactly the elements that are open, in order; closing these gives whole nodes.  A closing token
is owed only for the innermost element, right after the opening token of a tag that ends in `/>`.  A call
that fails changes neither the open elements nor what is owed, and does not move back. -/
theorem nested_askAll (text : Text) (n : Nat) :
    let s := (ofText text).askAll (.replicate n .next)
    (∃ starts, Unfinished s.tokens starts ∧ starts.map Prod.fst = s.reader.opened.map OpenElement.name) ∧
    (∃ ns, s.tokens ++ s.reader.opened.map (fun e => .closing e.name .start) = Node.tokensAll ns) ∧
    (∀ name place, s.reader.pending = some (name, place) →
      ∃ e outer attributes before, s.reader.opened = e :: outer ∧ e.name = name ∧
        s.replies.getLast? = some (.token (.opening name attributes place)) ∧
        text = before ++ (lit "/>" ++ s.reader.cursor.rest)) ∧
    ∀ e r, s.reader.next = .error e r →
      r.opened = s.reader.opened ∧ r.pending = s.reader.pending ∧ r.cursor.rest <:+ s.reader.cursor.rest := by
  intro s
  have hnested : s.Nested := by
    apply askAll_induction (nested_ofText text)
    intro s' q hq h
    rw [List.eq_of_mem_replicate hq]
    exact h.ask_next
  obtain ⟨starts, hstarts, hnames⟩ := hnested.unfinished
  refine ⟨⟨starts, hstarts, hnames⟩, ?_, (sound_askAll text _).owed, ?_⟩
  · obtain ⟨ns, hns⟩ := hstarts.exists_completion .start
    refine ⟨ns, ?_⟩
    rw [← hns]
    have hclosings := congrArg (List.map fun name => Token.closing name .start) hnames
    rw [List.map_map, List.map_map] at hclosings
    exact congrArg _ hclosings.symm
  · intro e r hn
    have hfails := Reader.fails_of_next hn
    obtain ⟨t, ht⟩ := hfails.reaches
    refine ⟨?_, ?_, t, ht.rest_eq.symm⟩
    · rw [hfails.reader_eq]
    · rw [hfails.reader_eq]

end Session

end Pictogram
