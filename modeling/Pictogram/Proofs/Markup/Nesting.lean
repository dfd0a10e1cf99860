import Pictogram.Markup.Reader

/-! # Nesting of tokens

What a token does to the elements that are open: an opening token adds its element, a closing token
removes the innermost one and carries its name, a text leaves them alone (`Nests`).  A reader that
owes a closing token owes that of its innermost element (`Settled`); every token that `next` yields
nests and leaves a settled reader (`nests_of_next`).

`Yields r ts r'` says that the tokens `ts` come next from `r` and lead to `r'`. -/

namespace Pictogram

/-- The effect of a token on the open elements, innermost first. -/
inductive Nests : List OpenElement → Token → List OpenElement → Prop
  | opening (e : OpenElement) (attributes : Table) (place : Position) (opened : List OpenElement) :
      Nests opened (.opening e.name attributes place) (e :: opened)
  | closing (e : OpenElement) (place : Position) (opened : List OpenElement) :
      Nests (e :: opened) (.closing e.name place) opened
  | text (content : Text) (place : Position) (opened : List OpenElement) :
      Nests opened (.text content place) opened

namespace Nests

variable {opened opened' : List OpenElement} {name : ElementName} {place : Position}

theorem of_opening {attributes : Table} (h : Nests opened (.opening name attributes place) opened') :
    ∃ e, e.name = name ∧ opened' = e :: opened := by
  cases h with
  | opening e => exact ⟨e, rfl, rfl⟩

theorem of_closing (h : Nests opened (.closing name place) opened') :
    ∃ e, e.name = name ∧ opened = e :: opened' := by
  cases h with
  | closing e => exact ⟨e, rfl, rfl⟩

theorem of_text {content : Text} (h : Nests opened (.text content place) opened') : opened' = opened := by
  cases h
  rfl

end Nests

namespace Reader

/-- A closing token that is owed belongs to the innermost open element. -/
def Settled (r : Reader) : Prop :=
  ∀ name place, r.pending = some (name, place) → ∃ e outer, r.opened = e :: outer ∧ e.name = name

theorem settled_of_pending_eq_none {r : Reader} (h : r.pending = none) : r.Settled := by
  intro name place hp
  rw [h] at hp
  cases hp

theorem settled_ofText (t : Text) : (ofText t).Settled := settled_of_pending_eq_none rfl

/-! ### One construct -/

theorem nests_of_enter {r r' : Reader} {tag : OpeningTag} {place : Position} {t : Token}
    (hp : r.pending = none) (h : r.enter tag place = .ok (some t) r') :
    Nests r.opened t r'.opened ∧ r'.Settled := by
  simp only [enter] at h
  split at h
  · cases h
    refine ⟨.opening ⟨tag.written, _, _⟩ _ _ _, ?_⟩
    intro name place' e
    obtain ⟨rfl, rfl⟩ := Prod.mk.inj (Option.some.inj e)
    exact ⟨_, _, rfl, rfl⟩
  · cases h
    exact ⟨.opening ⟨tag.written, _, _⟩ _ _ _, settled_of_pending_eq_none hp⟩

theorem nests_of_leave {r r' : Reader} {written : Text} {place : Position} {t : Token}
    (hp : r.pending = none) (h : r.leave written place = .ok (some t) r') :
    Nests r.opened t r'.opened ∧ r'.Settled := by
  unfold leave at h
  split at h
  · cases h
  · next e outer ho =>
    split at h
    · cases h
      rw [ho]
      exact ⟨.closing e place outer, settled_of_pending_eq_none hp⟩
    · cases h

/-- A construct that yields a token has the effect of the token. -/
theorem nests_of_step {r r' : Reader} {t : Token} (hp : r.pending = none)
    (h : r.step = .ok (some t) r') : Nests r.opened t r'.opened ∧ r'.Settled := by
  simp only [step] at h
  split at h
  · obtain ⟨_, c, _, e⟩ := lift_eq_ok h
    cases e
  · obtain ⟨_, c, _, e⟩ := lift_eq_ok h
    cases e
  · obtain ⟨_, c, _, e⟩ := lift_eq_ok h
    cases e
    exact ⟨.text _ _ _, settled_of_pending_eq_none hp⟩
  · obtain ⟨_, c, _, e⟩ := lift_eq_ok h
    cases e
  · obtain ⟨_, c, _, e⟩ := lift_eq_ok h
    exact nests_of_leave (r := { r with cursor := c }) hp e
  · obtain ⟨_, c, _, e⟩ := lift_eq_ok h
    exact nests_of_enter (r := { r with cursor := c }) hp e
  · simp only [readText] at h
    split at h
    · cases h
    · cases h
      exact ⟨.text _ _ _, settled_of_pending_eq_none hp⟩

/-- A construct that yields no token only moves the cursor. -/
theorem eq_of_step_none {r r' : Reader} (h : r.step = .ok none r') :
    r' = { r with cursor := r'.cursor } := by
  simp only [step] at h
  split at h
  · obtain ⟨_, c, _, e⟩ := lift_eq_ok h
    cases e
    rfl
  · obtain ⟨_, c, _, e⟩ := lift_eq_ok h
    cases e
    rfl
  · obtain ⟨_, c, _, e⟩ := lift_eq_ok h
    cases e
  · obtain ⟨_, c, _, e⟩ := lift_eq_ok h
    cases e
    rfl
  · obtain ⟨_, c, _, e⟩ := lift_eq_ok h
    unfold leave at e
    repeat' split at e
    all_goals cases e
  · obtain ⟨_, c, _, e⟩ := lift_eq_ok h
    cases e
  · simp only [readText] at h
    split at h <;> cases h

/-! ### One token -/

theorem nests_of_read {r r' : Reader} {t : Token} (hp : r.pending = none)
    (h : r.read = .ok (some t) r') : Nests r.opened t r'.opened ∧ r'.Settled := by
  fun_induction read r with
  | case1 => cases h
  | case2 => cases h
  | case3 r hr t s hs =>
      cases h
      exact nests_of_step hp hs
  | case4 r hr s hs _ ih =>
      have e := eq_of_step_none hs
      have ho : s.opened = r.opened := by rw [e]
      rw [← ho]
      exact ih (by rw [e]; exact hp) h

/-- Every token nests. -/
theorem nests_of_next {r r' : Reader} {t : Token} (hr : r.Settled)
    (h : r.next = .ok (some t) r') : Nests r.opened t r'.opened ∧ r'.Settled := by
  unfold next at h
  split at h
  · next name place hp =>
    cases h
    obtain ⟨e, outer, ho, rfl⟩ := hr name place hp
    rw [ho]
    exact ⟨.closing e place outer, settled_of_pending_eq_none rfl⟩
  · next hp => exact nests_of_read hp h

/-! ### Sequences of tokens -/

/-- The tokens that come next, up to a later state of the reader. -/
inductive Yields : Reader → List Token → Reader → Prop
  | nil (r : Reader) : Yields r [] r
  | cons {r s r' : Reader} {t : Token} {ts : List Token} :
      r.next = .ok (some t) s → Yields s ts r' → Yields r (t :: ts) r'

theorem yields_nil_iff {r r' : Reader} : Yields r [] r' ↔ r' = r := by
  constructor
  · rintro ⟨⟩
    rfl
  · rintro rfl
    exact .nil _

theorem yields_cons_iff {r r' : Reader} {t : Token} {ts : List Token} :
    Yields r (t :: ts) r' ↔ ∃ s, r.next = .ok (some t) s ∧ Yields s ts r' := by
  constructor
  · rintro (_ | ⟨h, hs⟩)
    exact ⟨_, h, hs⟩
  · rintro ⟨s, h, hs⟩
    exact .cons h hs

theorem yields_append_iff {r r' : Reader} {ts us : List Token} :
    Yields r (ts ++ us) r' ↔ ∃ s, Yields r ts s ∧ Yields s us r' := by
  induction ts generalizing r with
  | nil => simp [yields_nil_iff]
  | cons t ts ih =>
      simp only [List.cons_append, yields_cons_iff, ih]
      constructor
      · rintro ⟨s, h, s', hs, hs'⟩
        exact ⟨s', ⟨s, h, hs⟩, hs'⟩
      · rintro ⟨s', ⟨s, h, hs⟩, hs'⟩
        exact ⟨s, h, s', hs, hs'⟩

/-! ### The recursive readers, one token at a time -/

theorem skipTo_of_next {r s : Reader} {t : Token} (depth : Nat) (h : r.next = .ok (some t) s) :
    r.skipTo depth = if t.isClosing ∧ s.opened.length + 1 = depth then .ok () s else s.skipTo depth := by
  rw [skipTo]
  split <;> simp_all

theorem drain_of_next {r s : Reader} {t : Token} (h : r.next = .ok (some t) s) :
    r.drain = (t :: s.drain.1, s.drain.2) := by
  rw [drain]
  split <;> simp_all

/-- The tokens of a whole text come one after the other. -/
theorem yields_drain (r : Reader) : ∃ r', Yields r r.drain.1 r' := by
  fun_induction drain r with
  | case1 r => exact ⟨r, .nil r⟩
  | case2 r => exact ⟨r, .nil r⟩
  | case3 r t s h _ ts rest e ih =>
      obtain ⟨r', hs⟩ := ih
      rw [e] at hs
      exact ⟨r', .cons h hs⟩

end Reader
end Pictogram
