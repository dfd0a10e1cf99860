import Mathlib.Data.List.Infix
import Pictogram.Proofs.Markup.BrokenTag
import Pictogram.Proofs.Markup.RoundTrip
import Pictogram.Proofs.Markup.SinglePass

/-! # Texts that break off

A text that has been read without a fault is broken off somewhere, and the front of it is read again.  All
that lies in front of the break is read as before.  A construct that the break cuts through cannot be read,
except for a text, which then ends at the break (`breaksOff_step`).  So there are no more tokens but perhaps
a text (`next_or_runsOut`).

Reading on ends in an error that is determined by the text (`Final`).  It says that the text has ended,
unless the text breaks off at a gap of a tag (`EndsAtGap`); then it faults the markup (`Breaks.code_eq`). -/

namespace Pictogram

/-! ### References -/

namespace Reference

/-- `x` is the text `y` broken off, up to an end that holds no semicolon. -/
def Fragment (x y : Text) : Prop := ∃ a b c, x = a ++ b ∧ y = a ++ c ∧ unit ';' ∉ b

theorem resolves_self {kinds : List Kind} {t : Text} (h : unit ';' ∉ t) : Resolves kinds t t := by
  induction t with
  | nil => exact .nil
  | cons u t ih =>
      refine .copy ?_ (ih fun hm => h (List.mem_cons_of_mem u hm))
      intro k _ body back _ e
      exact h (by simp [e])

theorem Fragment.cons {x y : Text} (h : Fragment x y) (u : CodeUnit) : Fragment (u :: x) (u :: y) := by
  obtain ⟨a, b, c, rfl, rfl, hb⟩ := h
  exact ⟨u :: a, b, c, rfl, rfl, hb⟩

theorem Fragment.append {x y : Text} (h : Fragment x y) (a : Text) : Fragment (a ++ x) (a ++ y) := by
  induction a with
  | nil => exact h
  | cons u a ih => exact ih.cons u

/-- Of a text that begins with a reference, a front holds all of the reference, or its semicolon comes later. -/
theorem front_of_reference {k : Kind} {body a c back : Text} (hf : k.Forms body)
    (e : a ++ c = unit '&' :: (body ++ unit ';' :: back)) :
    (∃ a', a = unit '&' :: (body ++ unit ';' :: a') ∧ back = a' ++ c) ∨ unit ';' ∉ a ∧ unit ';' ∈ c := by
  have e : a ++ c = unit '&' :: (body ++ [unit ';']) ++ back := by simpa using e
  rcases List.append_eq_append_iff.mp e with ⟨a', hw, rfl⟩ | ⟨c', rfl, rfl⟩
  · rcases List.eq_nil_or_concat a' with rfl | ⟨v, q, rfl⟩
    · exact .inl ⟨[], by simpa using hw.symm, rfl⟩
    · have hw : unit '&' :: body ++ [unit ';'] = a ++ v ++ [q] := by simpa using hw
      obtain ⟨hbody, hq⟩ := List.append_inj' hw rfl
      have hnot : unit ';' ∉ a ++ v := by
        rw [← hbody]
        simpa using ⟨by decide, not_mem_of_forms hf (by decide)⟩
      obtain rfl := List.singleton_inj.mp hq
      exact .inr ⟨fun hm => hnot (List.mem_append_left v hm), by simp⟩
  · exact .inl ⟨c', by simp, rfl⟩

/-- A walk over a text that is broken off. -/
theorem exists_resolves_fragment {kinds : List Kind} {x y s : Text} (h : Resolves kinds y s)
    (hx : Fragment x y) : ∃ s', Resolves kinds x s' ∧ Fragment s' s := by
  obtain ⟨a, b, c, rfl, hy, hb⟩ := hx
  have hself {t : Text} (ht : unit ';' ∉ t) (s : Text) : ∃ s', Resolves kinds t s' ∧ Fragment s' s :=
    ⟨t, resolves_self ht, [], t, s, rfl, rfl, ht⟩
  induction h generalizing a with
  | nil =>
      obtain ⟨rfl, -⟩ := List.append_eq_nil_iff.mp hy.symm
      exact hself hb []
  | @reference k body m t s hk hf hm _ ih =>
      rcases front_of_reference hf hy.symm with ⟨a', rfl, rfl⟩ | ⟨ha, -⟩
      · obtain ⟨s', hs', hfragment⟩ := ih a' rfl
        exact ⟨m ++ s', by simpa using Resolves.reference hk hf hm hs', hfragment.append m⟩
      · exact hself (by simpa using ⟨ha, hb⟩) _
  | @copy u t s hnone _ ih =>
      rcases a with _ | ⟨v, a⟩
      · exact hself hb _
      · obtain ⟨rfl, rfl⟩ := List.cons.inj hy
        obtain ⟨s', hs', hfragment⟩ := ih a rfl
        refine ⟨u :: s', .copy ?_ hs', hfragment.cons u⟩
        intro k hk body back hf e
        rcases front_of_reference (a := u :: a) hf e with ⟨a', ha', -⟩ | ⟨-, hm⟩
        · exact hnone k hk body (a' ++ c) hf (by show u :: a ++ c = _; rw [ha']; simp)
        · exact hb hm

/-- The front of a text that can be decoded can be decoded. -/
theorem exists_decode_of_prefix {x y s : Text} (h : decode y = .ok s) (hx : x <+: y) :
    ∃ s', decode x = .ok s' := by
  obtain ⟨t₁, t₂, h₁, h₂, h₃⟩ := decode_eq_ok_iff.mp h
  obtain ⟨c, rfl⟩ := hx
  obtain ⟨s₁, hs₁, hf₁⟩ := exists_resolves_fragment h₁ ⟨x, [], c, (List.append_nil x).symm, rfl, by simp⟩
  obtain ⟨s₂, hs₂, hf₂⟩ := exists_resolves_fragment h₂ hf₁
  obtain ⟨s₃, hs₃, -⟩ := exists_resolves_fragment h₃ hf₂
  exact ⟨s₃, decode_eq_ok_iff.mpr ⟨s₁, s₂, hs₁, hs₂, hs₃⟩⟩

end Reference

/-! ### Constructs -/

namespace BreaksOff

variable {σ α : Type} {gap gap' : Prop}

theorem mono {o : Outcome σ α} (h : BreaksOff gap o) (hgap : gap → gap') : BreaksOff gap' o := by
  obtain ⟨e, s, ho, hcause⟩ := h
  exact ⟨e, s, ho, hcause.imp_right fun hg => ⟨hg.1, hgap hg.2⟩⟩

theorem lift {β : Type} {o : Outcome Cursor α} (h : BreaksOff gap o) (r : Reader)
    (k : α → Reader → Outcome Reader β) : BreaksOff gap (r.lift o k) := by
  obtain ⟨e, c, rfl, hcause⟩ := h
  exact ⟨e, _, rfl, hcause⟩

end BreaksOff

namespace Cursor

variable {z : Text} {c c' d : Cursor}

theorem Alike.symm {z z' : Text} (h : Alike z z' c c') : Alike z' z c' c := by
  obtain ⟨t, ht, ht'⟩ := h.rest_eq
  exact ⟨⟨t, ht', ht⟩, h.position_eq.symm⟩

theorem Alike.breaksOff_readPast {stop t : Text} {enclosure : Enclosure} (h : Alike z [] c c') (hstop : stop ≠ [])
    (hd : c.readPast stop enclosure = .ok t d) (hz : d.rest.length < z.length) :
    BreaksOff False (c'.readPast stop enclosure) := by
  cases hpast : c'.readPast stop enclosure with
  | error e s =>
      refine ⟨e, s, rfl, .inl ?_⟩
      unfold Cursor.readPast at hpast
      split at hpast <;> cases hpast
      rfl
  | ok t' d' =>
      obtain ⟨d'', hd'', halike⟩ := h.symm.readPast hstop hpast (Nat.zero_le _)
      rw [hd] at hd''
      cases hd''
      exact absurd hz (Nat.not_lt.mpr halike.symm.length_le)

theorem Alike.breaksOff_readDeclaration {t : Text} (h : Alike z [] c c') (hd : c.readDeclaration = .ok t d)
    (hz : d.rest.length < z.length) : BreaksOff False c'.readDeclaration := by
  cases hdeclaration : c'.readDeclaration with
  | error e s =>
      refine ⟨e, s, rfl, .inl ?_⟩
      unfold Cursor.readDeclaration at hdeclaration
      split at hdeclaration <;> cases hdeclaration
      rfl
  | ok t' d' =>
      obtain ⟨d'', hd'', halike⟩ := h.symm.readDeclaration hdeclaration (Nat.zero_le _)
      rw [hd] at hd''
      cases hd''
      exact absurd hz (Nat.not_lt.mpr halike.symm.length_le)

end Cursor

namespace Construct

/-- A text that breaks off behind the front of a construct begins with that construct. -/
theorem ofText_of_front {t z : Text} (h : (ofText (t ++ z)).front <+: t) : ofText t = ofText (t ++ z) := by
  have hnot {front : Text} (hf : ¬ (t ++ z).startsWith front) : ¬ t.startsWith front := by
    intro hs
    exact hf (Text.startsWith_iff.mpr ((Text.startsWith_iff.mp hs).trans (List.prefix_append t z)))
  have hpos {front : Text} (hf : front <+: t) : t.startsWith front := Text.startsWith_iff.mpr hf
  unfold ofText at h ⊢
  split_ifs at h with h₁ h₂ h₃ h₄ h₅ h₆
  · rw [if_pos h₁]
    exact if_pos (hpos h)
  · rw [if_neg h₁, if_pos h₂, if_neg (hnot h₁)]
    exact if_pos (hpos h)
  · rw [if_neg h₁, if_neg h₂, if_pos h₃, if_neg (hnot h₁), if_neg (hnot h₂)]
    exact if_pos (hpos h)
  · rw [if_neg h₁, if_neg h₂, if_neg h₃, if_pos h₄, if_neg (hnot h₁), if_neg (hnot h₂), if_neg (hnot h₃)]
    exact if_pos (hpos h)
  · rw [if_neg h₁, if_neg h₂, if_neg h₃, if_neg h₄, if_pos h₅, if_neg (hnot h₁), if_neg (hnot h₂),
      if_neg (hnot h₃), if_neg (hnot h₄)]
    exact if_pos (hpos h)
  · rw [if_neg h₁, if_neg h₂, if_neg h₃, if_neg h₄, if_neg h₅, if_pos h₆, if_neg (hnot h₁), if_neg (hnot h₂),
      if_neg (hnot h₃), if_neg (hnot h₄), if_neg (hnot h₅)]
    exact if_pos (hpos h)
  · rw [if_neg h₁, if_neg h₂, if_neg h₃, if_neg h₄, if_neg h₅, if_neg h₆, if_neg (hnot h₁), if_neg (hnot h₂),
      if_neg (hnot h₃), if_neg (hnot h₄), if_neg (hnot h₅), if_neg (hnot h₆)]

/-- A front that breaks off is a `<`, or a declaration without an end. -/
theorem broken_front (k : Construct) {t : Text} (h : t <+: k.front) (hne : t ≠ []) (hproper : t ≠ k.front) :
    t = [unit '<'] ∨ ofText t = .declaration ∧ Cursor.declarationLength? 0 0 t = none := by
  have hfronts : ∀ t ∈ k.front.inits, t ≠ [] → t ≠ k.front →
      t = [unit '<'] ∨ ofText t = .declaration ∧ Cursor.declarationLength? 0 0 t = none := by
    cases k <;> decide
  exact hfronts t ((List.mem_inits _ _).mpr h) hne hproper

end Construct

theorem Fault.code_unexpectedEnd (opened : List OpenElement) : (unexpectedEnd opened).code = .unexpectedEnd := by
  cases opened <;> rfl

def Token.isText : Token → Bool
  | .text .. => true
  | _ => false

namespace Reader

open Source

variable {z : Text} {r r' s : Reader}

/-- A text up to the break, or over it, is read up to the break. -/
theorem exists_readText {t : Option Token} (h : Alike z [] r r') (hs : r.readText = .ok t s)
    (hz : s.cursor.rest.length ≤ z.length) :
    ∃ content place s', r'.readText = .ok (some (.text content place)) s' ∧ s'.cursor.rest = [] ∧
      s'.pending = r'.pending := by
  simp only [readText] at hs
  split at hs
  · cases hs
  · next content hdecode =>
    cases hs
    obtain ⟨hall, htake, hrest⟩ := h.cursor.takeWhile_all hz
    have hprefix : r'.cursor.rest <+: (r.cursor.takeWhile (· ≠ unit '<')).1 := by
      obtain ⟨x, hx, hx'⟩ := h.cursor.rest_eq
      rw [List.append_nil] at hx'
      rw [hx'] at hall ⊢
      show x <+: r.cursor.rest.takeWhile _
      rw [hx, List.takeWhile_append_of_pos hall]
      exact List.prefix_append x _
    obtain ⟨content', hcontent'⟩ := Reference.exists_decode_of_prefix hdecode hprefix
    refine ⟨content', r'.cursor.position, { r' with cursor := (r'.cursor.takeWhile (· ≠ unit '<')).2 }, ?_, hrest, rfl⟩
    simp only [readText, htake, hcontent']

theorem isClosing_of_leave {written : Text} {place : Position} {t : Option Token}
    (h : r.leave written place = .ok t s) : ∃ name, t = some (.closing name place) := by
  unfold leave at h
  split at h
  · cases h
  · split at h <;> cases h
    exact ⟨_, rfl⟩

theorem opening_of_enter {tag : OpeningTag} {place : Position} {t : Option Token}
    (h : r.enter tag place = .ok t s) : ∃ name attributes, t = some (.opening name attributes place) := by
  cases h
  exact ⟨_, _, rfl⟩

/-- A break within the front of a construct. -/
theorem breaksOff_front (hr' : r'.cursor.rest ≠ []) {k : Construct} (h : r'.cursor.rest <+: k.front)
    (hproper : r'.cursor.rest ≠ k.front) : BreaksOff (BrokenTag r'.cursor.rest) r'.step := by
  simp only [step]
  rcases k.broken_front h hr' hproper with hangle | ⟨hconstruct, hnone⟩
  · obtain ⟨c, hc⟩ := Tag.readOpening_angle (Fault.unexpectedEnd r'.opened) hangle
    rw [hangle, show Construct.ofText [unit '<'] = .openingTag by decide]
    simp only [hc]
    exact ⟨_, _, rfl, .inr ⟨rfl, .angle⟩⟩
  · rw [hconstruct]
    simp only [Cursor.readDeclaration, hnone]
    exact ⟨_, _, rfl, .inl rfl⟩

/-- A construct that gives no token is cut through. -/
theorem cut_of_lift_none {o : Outcome Cursor Text} {t : Option Token}
    (hs : r.lift o (fun _ r => .ok none r) = .ok t s)
    (hz : s.cursor.rest.length < z.length ∨ (∃ u ∈ t, u.isText) ∧ s.cursor.rest.length = z.length) :
    ∃ x c, o = .ok x c ∧ c.rest.length < z.length := by
  obtain ⟨x, c, hc, e⟩ := lift_eq_ok hs
  cases e
  exact ⟨x, c, hc, hz.resolve_right (by rintro ⟨⟨u, ⟨⟩, -⟩, -⟩)⟩

/-- A construct that the break cuts through. -/
theorem breaksOff_step {t : Option Token} (h : Alike z [] r r') (hr' : r'.cursor.rest ≠ [])
    (hs : r.step = .ok t s)
    (hz : s.cursor.rest.length < z.length ∨ (∃ u ∈ t, u.isText) ∧ s.cursor.rest.length = z.length) :
    BreaksOff (BrokenTag r'.cursor.rest) r'.step ∨
      ∃ content place s', r'.step = .ok (some (.text content place)) s' ∧ s'.cursor.rest = [] ∧
        s'.pending = r'.pending := by
  have hended := Fault.code_unexpectedEnd r.opened
  obtain ⟨x, hx, hx'⟩ := h.cursor.rest_eq
  rw [List.append_nil] at hx'
  have hfront := Construct.front_prefix r.cursor.rest
  by_cases hwhole : (Construct.ofText r.cursor.rest).front <+: r'.cursor.rest
  · have hconstruct : Construct.ofText r'.cursor.rest = Construct.ofText r.cursor.rest := by
      rw [hx, hx'] at hwhole ⊢
      exact Construct.ofText_of_front hwhole
    simp only [step] at hs ⊢
    rw [hconstruct, h.opened_eq, h.cursor.position_eq]
    split at hs
    · left
      obtain ⟨_, c, hc, hcut⟩ := cut_of_lift_none hs hz
      exact ((h.cursor.breaksOff_readPast (by decide) hc hcut).mono False.elim).lift r' _
    · left
      obtain ⟨_, c, hc, hcut⟩ := cut_of_lift_none hs hz
      exact ((h.cursor.breaksOff_readPast (by decide) hc hcut).mono False.elim).lift r' _
    · next hk =>
      rw [hk] at hwhole
      obtain ⟨_, c, hc, e⟩ := lift_eq_ok hs
      cases e
      have hlength : 9 ≤ x.length := hx' ▸ hwhole.length_le
      have hopen := h.cursor.advance (n := 9) (by rw [hx, List.length_append]; omega)
      rcases hz with hz | ⟨-, hz⟩
      · exact .inl (((hopen.breaksOff_readPast (by decide) hc hz).mono False.elim).lift r' _)
      · right
        obtain ⟨c', hc', halike⟩ := hopen.readPast (by decide) hc (Nat.le_of_eq hz.symm)
        obtain ⟨y, hy, hy'⟩ := halike.rest_eq
        have hnil : y = [] := by
          change c.rest.length = z.length at hz
          rw [hy, List.length_append] at hz
          exact List.length_eq_zero_iff.mp (by omega)
        rw [hc']
        exact ⟨_, _, _, rfl, by rw [hy', hnil]; rfl, rfl⟩
    · left
      obtain ⟨_, c, hc, hcut⟩ := cut_of_lift_none hs hz
      exact ((h.cursor.breaksOff_readDeclaration hc hcut).mono False.elim).lift r' _
    · next hk =>
      left
      rw [hk] at hwhole
      obtain ⟨written, c, hc, hleave⟩ := lift_eq_ok hs
      obtain ⟨name, rfl⟩ := isClosing_of_leave hleave
      have hz := hz.resolve_right (by rintro ⟨⟨u, ⟨⟩, ⟨⟩⟩, -⟩)
      rw [cursor_leave hleave] at hz
      obtain ⟨tail, htail⟩ := hwhole
      exact ((Tag.breaksOff_readClosing hended h.cursor htail.symm hc hz).mono False.elim).lift r' _
    · next hk =>
      left
      rw [hk] at hwhole
      obtain ⟨tag, c, hc, henter⟩ := lift_eq_ok hs
      obtain ⟨name, attributes, rfl⟩ := opening_of_enter henter
      have hz := hz.resolve_right (by rintro ⟨⟨u, ⟨⟩, ⟨⟩⟩, -⟩)
      rw [cursor_enter henter] at hz
      obtain ⟨tail, htail⟩ := hwhole
      exact (Tag.breaksOff_readOpening hended h.cursor htail.symm hc hz).lift r' _
    · right
      exact exists_readText h hs (hz.elim Nat.le_of_lt fun hz => Nat.le_of_eq hz.2)
  · left
    have hbroken : r'.cursor.rest <+: (Construct.ofText r.cursor.rest).front := by
      rw [hx'] at hwhole ⊢
      rw [hx] at hfront hwhole ⊢
      exact (List.prefix_or_prefix_of_prefix hfront (List.prefix_append x z)).resolve_left hwhole
    exact breaksOff_front hr' hbroken fun e => hwhole (e ▸ List.prefix_refl _)

/-! ### Tokens -/

/-- The text of the reader, read construct by construct, breaks off at a gap of a tag. -/
inductive EndsAtGap : Reader → Prop
  | here {r : Reader} : r.pending = none → BrokenTag r.cursor.rest → EndsAtGap r
  | skipped {r s : Reader} : r.pending = none → r.cursor.rest ≠ [] → r.step = .ok none s → EndsAtGap s →
      EndsAtGap r
  | token {r s : Reader} {t : Token} : r.next = .ok (some t) s → EndsAtGap s → EndsAtGap r

/-- There are no more tokens but perhaps a text, and `e` is the error of reading on. -/
inductive RunsOut : Reader → CompileError → Prop
  | fault {r s : Reader} {e : CompileError} : r.next = .error e s → RunsOut r e
  | ended {r s : Reader} : r.next = .ok none s → RunsOut r s.unexpectedEnd
  | text {r s : Reader} {content : Text} {place : Position} : r.next = .ok (some (.text content place)) s →
      s.next = .ok none s → RunsOut r s.unexpectedEnd

/-- The error in which reading to the end of the text ends. -/
inductive Final : Reader → CompileError → Prop
  | fault {r s : Reader} {e : CompileError} : r.next = .error e s → Final r e
  | ended {r s : Reader} : r.next = .ok none s → Final r s.unexpectedEnd
  | token {r s : Reader} {t : Token} {e : CompileError} : r.next = .ok (some t) s → Final s e → Final r e

/-- The error of a text that breaks off: that the text ends or, at a gap, that the markup is at fault. -/
structure Breaks (r : Reader) (e : CompileError) : Prop where
  final : Final r e
  cause : e.cause.code = .unexpectedEnd ∨ e.cause.code = .malformedMarkup ∧ EndsAtGap r

theorem RunsOut.final {e : CompileError} (h : RunsOut r e) : Final r e := by
  cases h with
  | fault h => exact .fault h
  | ended h => exact .ended h
  | text h h' => exact .token h (.ended h')

theorem RunsOut.congr {e : CompileError} (h : RunsOut s e) (hn : r.next = s.next) : RunsOut r e := by
  cases h with
  | fault h => exact .fault (hn.trans h)
  | ended h => exact .ended (hn.trans h)
  | text h h' => exact .text (hn.trans h) h'

theorem Final.congr {e : CompileError} (h : Final s e) (hn : r.next = s.next) : Final r e := by
  cases h with
  | fault h => exact .fault (hn.trans h)
  | ended h => exact .ended (hn.trans h)
  | token h h' => exact .token (hn.trans h) h'

/-- Reading is determined, and so is its end. -/
theorem Final.unique {e e' : CompileError} (h : Final r e) (h' : Final r e') : e = e' := by
  induction h with
  | fault h =>
      cases h' with
      | fault h' | ended h' | token h' => simp_all
  | ended h =>
      cases h' with
      | fault h' | ended h' | token h' => simp_all
  | token h _ ih =>
      cases h' with
      | fault h' | ended h' => simp_all
      | token h' hf =>
          rw [h] at h'
          cases h'
          exact ih hf

theorem code_unexpectedEnd (r : Reader) : r.unexpectedEnd.cause.code = .unexpectedEnd :=
  Fault.code_unexpectedEnd r.opened

theorem next_of_step_error {e : CompileError} (hp : r.pending = none) (hr : r.cursor.rest ≠ [])
    (h : r.step = .error e s) : r.next = .error e s := by
  rw [next_of_pending_eq_none hp, read, dif_neg hr]
  split <;> simp_all

theorem next_of_step_none (hp : r.pending = none) (hr : r.cursor.rest ≠ []) (h : r.step = .ok none s) :
    r.next = s.next := by
  have hs : s.pending = none := by
    rw [eq_of_step_none h]
    exact hp
  rw [next_of_pending_eq_none hp, next_of_pending_eq_none hs, read_of_step_none hr h]

namespace Breaks

theorem token {t : Token} {e : CompileError} (ht : r.next = .ok (some t) s) (h : Breaks s e) : Breaks r e :=
  ⟨.token ht h.final, h.cause.imp_right fun hg => ⟨hg.1, .token ht hg.2⟩⟩

theorem skipped {e : CompileError} (hp : r.pending = none) (hr : r.cursor.rest ≠ []) (hs : r.step = .ok none s)
    (h : Breaks s e) : Breaks r e :=
  ⟨h.final.congr (next_of_step_none hp hr hs), h.cause.imp_right fun hg => ⟨hg.1, .skipped hp hr hs hg.2⟩⟩

end Breaks

/-- A construct that is cut through is the last that the front of the text has. -/
theorem runsOut_of_step {t : Option Token} (h : Alike z [] r r') (hp : r.pending = none)
    (hr' : r'.cursor.rest ≠ []) (hs : r.step = .ok t s)
    (hz : s.cursor.rest.length < z.length ∨ (∃ u ∈ t, u.isText) ∧ s.cursor.rest.length = z.length) :
    ∃ e, RunsOut r' e ∧ Breaks r' e := by
  have hp' : r'.pending = none := h.pending_eq.trans hp
  rcases breaksOff_step h hr' hs hz with ⟨e, s', hs', hcause⟩ | ⟨content, place, s', hs', hrest, hpending⟩
  · have hout := RunsOut.fault (next_of_step_error hp' hr' hs')
    exact ⟨e, hout, hout.final, hcause.imp_right fun hg => ⟨hg.1, .here hp' hg.2⟩⟩
  · have hout := RunsOut.text (next_of_step hp' hr' hs') (next_of_rest_eq_nil (hpending.trans hp') hrest)
    exact ⟨_, hout, hout.final, .inl s'.code_unexpectedEnd⟩

theorem runsOut_of_rest_nil (hp : r.pending = none) (hr : r.cursor.rest = []) :
    ∃ e, RunsOut r e ∧ Breaks r e := by
  have hout := RunsOut.ended (next_of_rest_eq_nil hp hr)
  exact ⟨_, hout, hout.final, .inl r.code_unexpectedEnd⟩

/-- A token that the break cuts through, or a text that ends there. -/
theorem exists_runsOut_of_read {t : Token} (h : Alike z [] r r') (hp : r.pending = none)
    (hs : r.read = .ok (some t) s)
    (hz : s.cursor.rest.length < z.length ∨ t.isText ∧ s.cursor.rest.length = z.length) :
    ∃ e, RunsOut r' e ∧ Breaks r' e := by
  fun_induction Reader.read r generalizing r' with
  | case1 => cases hs
  | case2 => cases hs
  | case3 r hr t' s₁ hstep =>
      cases hs
      by_cases hr' : r'.cursor.rest = []
      · exact runsOut_of_rest_nil (h.pending_eq.trans hp) hr'
      · exact runsOut_of_step h hp hr' hstep (hz.imp_right fun hz => ⟨⟨t, rfl, hz.1⟩, hz.2⟩)
  | case4 r hr s₁ hstep hlt ih =>
      have hp' : r'.pending = none := h.pending_eq.trans hp
      by_cases hr' : r'.cursor.rest = []
      · exact runsOut_of_rest_nil hp' hr'
      · by_cases hcut : s₁.cursor.rest.length < z.length
        · exact runsOut_of_step h hp hr' hstep (.inl hcut)
        · obtain ⟨s₁', hs₁', halike⟩ := h.step hp hr hstep (by omega) (by rintro _ _ ⟨⟩)
          have hp₁ : s₁.pending = none := by
            rw [eq_of_step_none hstep]
            exact hp
          obtain ⟨e, hout, hbreaks⟩ := ih halike hp₁ hs
          exact ⟨e, hout.congr (next_of_step_none hp' hr' hs₁'), hbreaks.skipped hp' hr' hs₁'⟩

theorem exists_runsOut {t : Token} (h : Alike z [] r r') (hs : r.next = .ok (some t) s)
    (hz : s.cursor.rest.length < z.length ∨ t.isText ∧ s.cursor.rest.length = z.length) :
    ∃ e, RunsOut r' e ∧ Breaks r' e := by
  unfold next at hs
  split at hs
  · cases hs
    have hz := hz.resolve_right (by rintro ⟨⟨⟩, -⟩)
    exact absurd hz (Nat.not_lt.mpr h.cursor.length_le)
  · next hp => exact exists_runsOut_of_read h hp hs hz

/-- A token is read by both in front of the break, or it is cut through. -/
theorem next_or_runsOut {t : Token} (h : Alike z [] r r') (hs : r.next = .ok (some t) s) :
    (∃ s', r'.next = .ok (some t) s' ∧ Alike z [] s s') ∨ ∃ e, RunsOut r' e ∧ Breaks r' e := by
  by_cases hz : s.cursor.rest.length < z.length ∨ t.isText ∧ s.cursor.rest.length = z.length
  · exact .inr (exists_runsOut h hs hz)
  · obtain ⟨hlt, heq⟩ := not_or.mp hz
    refine .inl (h.next hs (by omega) ?_)
    rintro content place rfl
    have hne : s.cursor.rest.length ≠ z.length := fun e => heq ⟨rfl, e⟩
    omega

theorem skipTo_of_runsOut {e : CompileError} (h : RunsOut r e) (depth : Nat) :
    ∃ s, r.skipTo depth = .error e s := by
  cases h with
  | fault h => exact ⟨_, skipTo_of_next_error depth h⟩
  | ended h => exact ⟨_, skipTo_of_next_none depth h⟩
  | @text s _ _ h h' =>
      refine ⟨s, ?_⟩
      rw [skipTo_of_next depth h, if_neg (by rintro ⟨⟨⟩, -⟩)]
      exact skipTo_of_next_none depth h'

theorem Breaks.of_skipTo {depth : Nat} {e : CompileError} (h : r.skipTo depth = .ok () s) (hs : Breaks s e) :
    Breaks r e := by
  fun_induction Reader.skipTo r depth with
  | case1 => cases h
  | case2 => cases h
  | case3 r t s₁ hn _ _ =>
      cases h
      exact hs.token hn
  | case4 r t s₁ hn _ _ ih => exact (ih h).token hn

/-- Passing over an element that is cut through. -/
theorem skipTo_breaks {depth : Nat} (h : Alike z [] r r') (hs : r.skipTo depth = .ok () s)
    (hz : s.cursor.rest.length < z.length) : ∃ e s', r'.skipTo depth = .error e s' ∧ Breaks r' e := by
  fun_induction Reader.skipTo r depth generalizing r' with
  | case1 => cases hs
  | case2 => cases hs
  | case3 r t s₁ hn _ hc =>
      cases hs
      rcases next_or_runsOut h hn with ⟨s', -, halike⟩ | ⟨e, hout, hbreaks⟩
      · exact absurd hz (Nat.not_lt.mpr halike.cursor.length_le)
      · obtain ⟨s', hs'⟩ := skipTo_of_runsOut hout _
        exact ⟨e, s', hs', hbreaks⟩
  | case4 r t s₁ hn _ hc ih =>
      rcases next_or_runsOut h hn with ⟨s₁', hs₁', halike⟩ | ⟨e, hout, hbreaks⟩
      · obtain ⟨e, s', hs', hbreaks⟩ := ih halike hs
        refine ⟨e, s', ?_, hbreaks.token hs₁'⟩
        rw [skipTo_of_next _ hs₁', halike.opened_eq, if_neg hc, hs']
      · obtain ⟨s', hs'⟩ := skipTo_of_runsOut hout _
        exact ⟨e, s', hs', hbreaks⟩

theorem skip_breaks (h : Alike z [] r r') (hs : r.skip = .ok () s) (hz : s.cursor.rest.length < z.length) :
    ∃ e s', r'.skip = .error e s' ∧ Breaks r' e := by
  obtain ⟨e, s', hs', hbreaks⟩ := skipTo_breaks h hs hz
  exact ⟨e, s', by rw [skip, h.opened_eq]; exact hs', hbreaks⟩

/-! ### Gaps -/

theorem step_of_brokenTag {r : Reader} (h : BrokenTag r.cursor.rest) :
    ∃ e s, r.step = .error e s ∧ e.cause.code = .malformedMarkup := by
  have hconstruct : Construct.ofText r.cursor.rest = .openingTag := by
    generalize r.cursor.rest = t at h
    cases h with
    | angle => decide
    | inside hn =>
        obtain ⟨u, name, rfl⟩ := List.exists_cons_of_ne_nil hn.1
        exact Construct.ofText_opening (hn.2 u (by simp)) _
  obtain ⟨e, c, hc, hcode⟩ := Tag.readOpening_of_brokenTag (Fault.unexpectedEnd r.opened) h
  refine ⟨e, { r with cursor := c }, ?_, hcode⟩
  simp only [step, hconstruct, hc]
  rfl

theorem rest_ne_nil_of_brokenTag {t : Text} (h : BrokenTag t) : t ≠ [] := by
  cases h <;> exact List.cons_ne_nil _ _

/-- A text that breaks off at a gap is faulted as markup. -/
theorem final_of_endsAtGap {r : Reader} (h : EndsAtGap r) : ∃ e, Final r e ∧ e.cause.code = .malformedMarkup := by
  induction h with
  | here hp hbroken =>
      obtain ⟨e, s, hs, hcode⟩ := step_of_brokenTag hbroken
      exact ⟨e, .fault (next_of_step_error hp (rest_ne_nil_of_brokenTag hbroken) hs), hcode⟩
  | skipped hp hr hs _ ih =>
      obtain ⟨e, he, hcode⟩ := ih
      exact ⟨e, he.congr (next_of_step_none hp hr hs), hcode⟩
  | token ht _ ih =>
      obtain ⟨e, he, hcode⟩ := ih
      exact ⟨e, .token ht he, hcode⟩

theorem Breaks.code_eq {r : Reader} {e : CompileError} (h : Breaks r e) :
    (EndsAtGap r ∧ e.cause.code = .malformedMarkup) ∨ (¬ EndsAtGap r ∧ e.cause.code = .unexpectedEnd) := by
  by_cases hgap : EndsAtGap r
  · obtain ⟨e', he', hcode⟩ := final_of_endsAtGap hgap
    rw [he'.unique h.final] at hcode
    exact .inl ⟨hgap, hcode⟩
  · exact .inr ⟨hgap, h.cause.resolve_right fun hg => hgap hg.2⟩

end Reader

end Pictogram
