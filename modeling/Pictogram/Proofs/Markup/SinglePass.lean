import Mathlib.Data.List.Induction
import Mathlib.Data.List.TakeWhile
import Pictogram.Proofs.Markup.Escaping

/-! # One pass for several kinds of references

`Resolves kinds t s` is a single walk over `t` from left to right: a reference of one of the kinds is
replaced by what it stands for, everything else is copied, and what has been put in is not read again.
A pass of decoding is such a walk for one kind (`pass_eq_ok_iff`).

Two walks one after the other are one walk for both (`resolves_concat_iff`), unless the second meets a
reference that the first has put together: one with its ampersand, or a unit further on, spelled by a
numeric reference (`Mixed`).  The references resolved up to the decimal ones are never mixed, and those
of a properly escaped text are not mixed either (`not_mixed_of_escapes`). -/

namespace Pictogram
namespace Reference

/-- No reference of the given kinds stands at the front of the text. -/
def BeginsNone (kinds : List Kind) (t : Text) : Prop :=
  ∀ k ∈ kinds, ∀ body back, k.Forms body → t ≠ unit '&' :: (body ++ unit ';' :: back)

/-- A single walk over the text. -/
inductive Resolves (kinds : List Kind) : Text → Text → Prop
  | nil : Resolves kinds [] []
  | reference {k : Kind} {body m t s : Text} : k ∈ kinds → k.Forms body → k.meaning body = .ok m →
      Resolves kinds t s → Resolves kinds (unit '&' :: (body ++ unit ';' :: t)) (m ++ s)
  | copy {u : CodeUnit} {t s : Text} : BeginsNone kinds (u :: t) → Resolves kinds t s →
      Resolves kinds (u :: t) (u :: s)

namespace Kind

def isNumeric : Kind → Bool
  | decimal | hexadecimal => true
  | _ => false

/-- The kinds resolved before a kind. -/
def before (k : Kind) : List Kind := all.takeWhile (· ≠ k)

end Kind

/-- The text begins with `w` for the pass of kind `k`: each unit is written as such, or by a numeric
reference that is resolved before. -/
inductive Shows (k : Kind) : Text → Text → Prop
  | nil {t : Text} : Shows k [] t
  | plain {u : CodeUnit} {w t : Text} : Shows k w t → Shows k (u :: w) (u :: t)
  | reference {j : Kind} {u : CodeUnit} {d w t : Text} : j ∈ k.before → j.isNumeric → j.Forms d →
      j.meaning d = .ok [u] → Shows k w t → Shows k (u :: w) (unit '&' :: (d ++ unit ';' :: t))

/-- Somewhere the pass of kind `k` is shown a reference that is not written in the text. -/
inductive Mixed (k : Kind) : Text → Prop
  | here {body t : Text} : k.Forms body → Shows k (unit '&' :: (body ++ [unit ';'])) t → BeginsNone [k] t →
      Mixed k t
  | later {u : CodeUnit} {t : Text} : Mixed k t → Mixed k (u :: t)

/-! ### What a reference is made of -/

theorem forms_of_named {name : String} {v : CodeUnit} {t : Text} {n : Nat} {r : Except Fault Text}
    (h : named name v t = some (n, r)) : ∃ back, t = unit '&' :: (lit name ++ unit ';' :: back) := by
  simp only [named] at h
  split at h
  · rename_i hs
    obtain ⟨back, hback⟩ := Option.isSome_iff_exists.mp hs
    have e := Text.stripFront?_eq_some_iff.mp hback
    exact ⟨back, by simpa using e⟩
  · cases h

theorem digits_of_numeric {opening : Text} {base : Nat} {t : Text} {n : Nat} {r : Except Fault Text}
    (h : numeric opening base t = some (n, r)) :
    ∃ digits back, digits ≠ [] ∧ (∀ u ∈ digits, isDigit base u) ∧
      t = opening ++ (digits ++ unit ';' :: back) := by
  unfold numeric at h
  split at h
  · cases h
  · rename_i body hs
    change (if body.takeWhile (isDigit base) ≠ [] ∧
      (body.drop (body.takeWhile (isDigit base)).length).head? = some (unit ';') then _ else none) = _ at h
    split at h
    · rename_i hc
      obtain ⟨back, hback⟩ := List.head?_eq_some_iff.mp hc.2
      refine ⟨_, back, hc.1, fun u hu => List.mem_takeWhile_imp hu, ?_⟩
      have htake := List.prefix_iff_eq_take.mp (List.takeWhile_prefix (isDigit base) (l := body))
      calc t = opening ++ body := Text.stripFront?_eq_some_iff.mp hs
        _ = opening ++ (body.take (body.takeWhile (isDigit base)).length ++
              body.drop (body.takeWhile (isDigit base)).length) := by rw [List.take_append_drop]
        _ = _ := by rw [← htake, hback]
    · cases h

/-- Whatever a rule recognizes is a reference of its kind. -/
theorem forms_of_rule {k : Kind} {t : Text} {n : Nat} {r : Except Fault Text} (h : k.rule t = some (n, r)) :
    ∃ body back, k.Forms body ∧ t = unit '&' :: (body ++ unit ';' :: back) := by
  cases k with
  | decimal =>
      obtain ⟨digits, back, hne, hd, e⟩ := digits_of_numeric h
      exact ⟨_, back, .decimal hne hd, e⟩
  | hexadecimal =>
      obtain ⟨digits, back, hne, hd, e⟩ := digits_of_numeric h
      exact ⟨_, back, .hexadecimal hne hd, e⟩
  | _ =>
      obtain ⟨back, e⟩ := forms_of_named h
      exact ⟨_, back, by constructor, e⟩

/-- The reference at the front of a text is the only one there. -/
theorem Kind.Forms.unique {k k' : Kind} {body body' back back' : Text} (h : k.Forms body)
    (h' : k'.Forms body') (e : body ++ unit ';' :: back = body' ++ unit ';' :: back') :
    k = k' ∧ body = body' ∧ back = back' := by
  have hrule := rule_of_forms (k := k') h back
  rw [e, rule_of_forms h', if_pos rfl] at hrule
  split at hrule
  · rename_i hk
    simp only [Option.some.injEq, Prod.mk.injEq] at hrule
    obtain ⟨hbody, hback⟩ := List.append_inj e (by omega)
    exact ⟨hk, hbody, List.tail_eq_of_cons_eq hback⟩
  · cases hrule

theorem beginsNone_of_ne (kinds : List Kind) {u : CodeUnit} (hu : u ≠ unit '&') (t : Text) :
    BeginsNone kinds (u :: t) := by
  intro k _ body back _ e
  exact hu (List.head_eq_of_cons_eq e)

theorem beginsNone_of_not_mem {kinds : List Kind} {k : Kind} (hk : k ∉ kinds) {body : Text}
    (h : k.Forms body) (t : Text) : BeginsNone kinds (unit '&' :: (body ++ unit ';' :: t)) := by
  intro k' hk' body' back h' e
  obtain ⟨rfl, -, -⟩ := h.unique h' (List.tail_eq_of_cons_eq e)
  exact hk hk'

/-- A text is empty, or a reference of one of the kinds stands at its front, or none. -/
theorem front_cases (kinds : List Kind) (t : Text) :
    t = [] ∨ (∃ k ∈ kinds, ∃ body back, k.Forms body ∧ t = unit '&' :: (body ++ unit ';' :: back)) ∨
      ∃ u back, t = u :: back ∧ BeginsNone kinds t := by
  rcases t with _ | ⟨u, t⟩
  · exact .inl rfl
  · by_cases h : BeginsNone kinds (u :: t)
    · exact .inr (.inr ⟨u, t, rfl, h⟩)
    · unfold BeginsNone at h
      push Not at h
      obtain ⟨k, hk, body, back, hf, e⟩ := h
      exact .inr (.inl ⟨k, hk, body, back, hf, e⟩)

/-! ### A walk, step by step -/

theorem resolves_nil_iff {kinds : List Kind} {s : Text} : Resolves kinds [] s ↔ s = [] := by
  constructor
  · rintro ⟨⟩
    rfl
  · rintro rfl
    exact .nil

theorem resolves_copy_iff {kinds : List Kind} {u : CodeUnit} {t s : Text} (h : BeginsNone kinds (u :: t)) :
    Resolves kinds (u :: t) s ↔ ∃ s', Resolves kinds t s' ∧ s = u :: s' := by
  constructor
  · intro hr
    generalize hx : u :: t = x at hr
    cases hr with
    | nil => cases hx
    | reference hk hf _ _ => exact absurd hx (h _ hk _ _ hf)
    | copy _ hr =>
        cases hx
        exact ⟨_, hr, rfl⟩
  · rintro ⟨s', hr, rfl⟩
    exact .copy h hr

theorem resolves_reference_iff {kinds : List Kind} {k : Kind} {body t s : Text} (hk : k ∈ kinds)
    (h : k.Forms body) : Resolves kinds (unit '&' :: (body ++ unit ';' :: t)) s ↔
      ∃ m s', k.meaning body = .ok m ∧ Resolves kinds t s' ∧ s = m ++ s' := by
  constructor
  · intro hr
    generalize hx : unit '&' :: (body ++ unit ';' :: t) = x at hr
    cases hr with
    | nil => cases hx
    | reference hk' hf hm hr =>
        obtain ⟨rfl, rfl, rfl⟩ := h.unique hf (List.tail_eq_of_cons_eq hx)
        exact ⟨_, _, hm, hr, rfl⟩
    | copy hn _ => exact absurd hx.symm (hn _ hk _ _ h)
  · rintro ⟨m, s', hm, hr, rfl⟩
    exact .reference hk h hm hr

theorem resolves_plain_append_iff {kinds : List Kind} {a t s : Text} (ha : unit '&' ∉ a) :
    Resolves kinds (a ++ t) s ↔ ∃ s', Resolves kinds t s' ∧ s = a ++ s' := by
  induction a generalizing s with
  | nil => simp
  | cons u a ih =>
      obtain ⟨hu, ha⟩ := not_or.mp (fun e => ha (List.mem_cons.mpr e))
      rw [List.cons_append, resolves_copy_iff (beginsNone_of_ne kinds (Ne.symm hu) _)]
      simp only [ih ha]
      constructor
      · rintro ⟨_, ⟨s', hr, rfl⟩, rfl⟩
        exact ⟨s', hr, rfl⟩
      · rintro ⟨s', hr, rfl⟩
        exact ⟨_, ⟨s', hr, rfl⟩, rfl⟩

/-- A reference of another kind is copied. -/
theorem resolves_other_iff {kinds : List Kind} {k : Kind} {body t s : Text} (hk : k ∉ kinds)
    (h : k.Forms body) : Resolves kinds (unit '&' :: (body ++ unit ';' :: t)) s ↔
      ∃ s', Resolves kinds t s' ∧ s = unit '&' :: (body ++ unit ';' :: s') := by
  rw [resolves_copy_iff (beginsNone_of_not_mem hk h t),
    show body ++ unit ';' :: t = body ++ [unit ';'] ++ t by simp]
  simp only [resolves_plain_append_iff (ampersand_not_mem_of_forms h)]
  constructor
  · rintro ⟨_, ⟨s', hr, rfl⟩, rfl⟩
    exact ⟨s', hr, by simp⟩
  · rintro ⟨s', hr, rfl⟩
    exact ⟨_, ⟨s', hr, rfl⟩, by simp⟩

/-- The walk has one result at most. -/
theorem Resolves.unique {kinds : List Kind} {t s s' : Text} (h : Resolves kinds t s)
    (h' : Resolves kinds t s') : s = s' := by
  induction h generalizing s' with
  | nil => exact (resolves_nil_iff.mp h').symm
  | reference hk hf hm _ ih =>
      obtain ⟨m', s'', hm', hr, rfl⟩ := (resolves_reference_iff hk hf).mp h'
      rw [hm] at hm'
      cases hm'
      rw [ih hr]
  | copy hn _ ih =>
      obtain ⟨s'', hr, rfl⟩ := (resolves_copy_iff hn).mp h'
      rw [ih hr]

/-! ### A pass is a walk -/

theorem rule_of_beginsNone {k : Kind} {t : Text} (h : BeginsNone [k] t) : k.rule t = none := by
  rcases hr : k.rule t with _ | ⟨n, r⟩
  · rfl
  · obtain ⟨body, back, hf, e⟩ := forms_of_rule hr
    exact absurd e (h k (List.mem_singleton.mpr rfl) body back hf)

theorem map_eq_ok_iff {f : Text → Text} {x : Except Fault Text} {s : Text} :
    x.map f = .ok s ↔ ∃ s', x = .ok s' ∧ s = f s' := by
  cases x with
  | error e => simp [Except.map]
  | ok s' => simp [Except.map, eq_comm]

theorem pass_reference_error {k : Kind} {body : Text} {f : Fault} (h : k.Forms body)
    (hm : k.meaning body = .error f) (t : Text) :
    pass k.rule 0 (unit '&' :: (body ++ unit ';' :: t)) = .error f := by
  rw [pass, rule_of_forms h, if_pos rfl, hm]

/-- A pass of decoding is the walk for its kind. -/
theorem pass_eq_ok_iff (k : Kind) {t s : Text} : pass k.rule 0 t = .ok s ↔ Resolves [k] t s := by
  induction hn : t.length using Nat.strong_induction_on generalizing t s with
  | _ n ih =>
      subst hn
      rcases front_cases [k] t with rfl | ⟨k', hk, body, back, hf, rfl⟩ | ⟨u, back, rfl, hnone⟩
      · rw [resolves_nil_iff, pass, Except.ok.injEq, eq_comm]
      · obtain rfl := List.mem_singleton.mp hk
        have ih (s : Text) := @ih back.length (by simp; omega) back s rfl
        rw [resolves_reference_iff hk hf]
        cases hm : k'.meaning body with
        | error f => simp [pass_reference_error hf hm]
        | ok m => simp [pass_reference_self hf hm, map_eq_ok_iff, ih]
      · have ih (s : Text) := @ih back.length (by simp) back s rfl
        rw [resolves_copy_iff hnone, pass, rule_of_beginsNone hnone]
        simp [map_eq_ok_iff, ih]

/-! ### Two walks as one -/

theorem ne_amp_of_mem_before {j k : Kind} (hj : j ∈ k.before) : j ≠ .amp := by
  have hamp : Kind.amp ∉ k.before := by cases k <;> decide
  rintro rfl
  exact hamp hj

theorem not_mem_before_self (k : Kind) : k ∉ k.before := by cases k <;> decide

theorem character_eq_ok_iff {code : Nat} {reference m : Text} :
    character code reference = .ok m ↔ code ≤ mostCodePoint ∧ m = Text.ofScalar code := by
  unfold character
  split
  · rename_i h
    simp [h, eq_comm]
  · rename_i h
    simp [h]

theorem ofScalar_ne_nil (code : Nat) : Text.ofScalar code ≠ [] := by
  unfold Text.ofScalar
  split <;> simp

/-- A character is an ampersand, or has none. -/
theorem ofScalar_cases {code : Nat} (h : code ≤ mostCodePoint) :
    unit '&' ∉ Text.ofScalar code ∨ Text.ofScalar code = [unit '&'] := by
  by_cases hamp : code = 38
  · subst hamp
    exact .inr (by decide)
  · exact .inl (not_mem_ofScalar ⟨h, hamp⟩)

theorem meaning_ne_nil {k : Kind} {body m : Text} (h : k.meaning body = .ok m) : m ≠ [] := by
  cases k with
  | decimal | hexadecimal =>
      rw [(character_eq_ok_iff.mp h).2]
      exact ofScalar_ne_nil _
  | _ =>
      cases h
      exact List.cons_ne_nil _ _

theorem meaning_cases {k : Kind} {body m : Text} (h : k.meaning body = .ok m) :
    unit '&' ∉ m ∨ m = [unit '&'] := by
  cases k with
  | decimal | hexadecimal =>
      obtain ⟨hc, rfl⟩ := character_eq_ok_iff.mp h
      exact ofScalar_cases hc
  | amp =>
      cases h
      exact .inr rfl
  | _ =>
      cases h
      exact .inl (by decide)

/-- Units that only a numeric reference puts in, and one by one: all that references are spelled with. -/
def isSpelling (u : CodeUnit) : Bool := decide (u ≤ unit 'z') && !(lit "<>\"'").contains u

theorem isSpelling_of_isReferenceUnit {u : CodeUnit} (h : isReferenceUnit u) : isSpelling u := by
  rcases Bool.or_eq_true_iff.mp h with hdigit | hname
  · have hle : u ≤ unit 'z' := by
      unfold CodeUnit.hexDigit? at hdigit
      split at hdigit
      · rename_i hr
        exact UInt16.le_trans hr.2 (by decide)
      · split at hdigit
        · rename_i hr
          exact UInt16.le_trans hr.2 (by decide)
        · split at hdigit
          · rename_i hr
            exact UInt16.le_trans hr.2 (by decide)
          · cases hdigit
    have hother : u ∉ lit "<>\"'" := by
      have hall : (lit "<>\"'").all fun v => v.hexDigit?.isNone := by decide
      intro hmem
      have hnone := List.all_eq_true.mp hall u hmem
      rw [Option.isNone_iff_eq_none.mp hnone] at hdigit
      cases hdigit
    simp [isSpelling, hle, hother]
  · have hall : (lit "#xltgquoamps").all isSpelling := by decide
    exact List.all_eq_true.mp hall u (List.contains_iff_mem.mp hname)

theorem isSpelling_of_forms {k : Kind} {body : Text} (h : k.Forms body) :
    ∀ u ∈ body ++ [unit ';'], isSpelling u := by
  intro u hu
  rcases List.mem_append.mp hu with hb | hs
  · exact isSpelling_of_isReferenceUnit (h.units u hb)
  · rw [List.mem_singleton.mp hs]
    decide

theorem eq_nil_of_ofScalar {code : Nat} (hc : code ≤ mostCodePoint) {u : CodeUnit} {m : Text}
    (hu : u ≤ unit 'z') (h : u :: m = Text.ofScalar code) : m = [] := by
  have hc : code ≤ 1114111 := hc
  have hz : (unit 'z').toNat = 122 := by decide
  unfold Text.ofScalar at h
  split at h
  · exact (List.cons.inj h).2
  · rw [(List.cons.inj h).1, UInt16.le_iff_toNat_le, UInt16.toNat_ofNat'] at hu
    omega

/-- The units that references are spelled with come from numeric references only, one by one. -/
theorem numeric_of_meaning {k : Kind} {body m : Text} {u : CodeUnit} (hk : k ≠ .amp)
    (hu : isSpelling u) (h : k.meaning body = .ok (u :: m)) : k.isNumeric ∧ m = [] := by
  cases k with
  | decimal | hexadecimal =>
      obtain ⟨hc, e⟩ := character_eq_ok_iff.mp h
      have hle := of_decide_eq_true (Bool.and_eq_true_iff.mp hu).1
      exact ⟨rfl, eq_nil_of_ofScalar hc hle e⟩
  | amp => exact absurd rfl hk
  | _ =>
      cases h
      exact absurd hu (by decide)

/-- What begins the result of the walk before a kind is shown to its pass. -/
theorem shows_of_resolves {k : Kind} {w t s : Text} (hw : ∀ u ∈ w, isSpelling u)
    (h : Resolves k.before t s) (hs : w <+: s) : Shows k w t := by
  induction h generalizing w with
  | nil =>
      rw [List.prefix_nil.mp hs]
      exact .nil
  | @reference j d m t s hj hd hm _ ih =>
      rcases w with _ | ⟨u, w⟩
      · exact .nil
      · obtain ⟨v, m, rfl⟩ := List.exists_cons_of_ne_nil (meaning_ne_nil hm)
        obtain ⟨rfl, hs'⟩ := List.cons_prefix_cons.mp hs
        obtain ⟨hn, rfl⟩ := numeric_of_meaning (ne_amp_of_mem_before hj) (hw u (by simp)) hm
        exact .reference hj hn hd hm (ih (fun v hv => hw v (by simp [hv])) hs')
  | @copy v t s _ _ ih =>
      rcases w with _ | ⟨u, w⟩
      · exact .nil
      · obtain ⟨rfl, hs'⟩ := List.cons_prefix_cons.mp hs
        exact .plain (ih (fun v hv => hw v (by simp [hv])) hs')

/-- If no reference is written at the front and none is mixed, there is none after the walk before. -/
theorem beginsNone_of_not_mixed {k : Kind} {t s : Text} (hmixed : ¬ Mixed k t) (hnone : BeginsNone [k] t)
    (hshows : ∀ {w}, (∀ u ∈ w, isSpelling u) → w <+: s → Shows k (unit '&' :: w) t) :
    BeginsNone [k] (unit '&' :: s) := by
  intro k' hk' body back hf e
  obtain rfl := List.mem_singleton.mp hk'
  have hs : body ++ [unit ';'] <+: s := ⟨back, by simpa using (List.tail_eq_of_cons_eq e).symm⟩
  exact hmixed (.here hf (hshows (isSpelling_of_forms hf) hs) hnone)

theorem Mixed.append {k : Kind} {t : Text} (h : Mixed k t) (a : Text) : Mixed k (a ++ t) := by
  induction a with
  | nil => exact h
  | cons u a ih => exact .later ih

/-- A kind's walk copies what an earlier reference has put in. -/
theorem resolves_meaning_iff {j k : Kind} {d m y t s : Text} (hj : j ∈ k.before) (hd : j.Forms d)
    (hm : j.meaning d = .ok m) (hmixed : ¬ Mixed k (unit '&' :: (d ++ unit ';' :: y)))
    (h : Resolves k.before y t) :
    Resolves [k] (m ++ t) s ↔ ∃ s', Resolves [k] t s' ∧ s = m ++ s' := by
  rcases meaning_cases hm with hplain | rfl
  · exact resolves_plain_append_iff hplain
  · have hn := (numeric_of_meaning (ne_amp_of_mem_before hj) (by decide) hm).1
    have hne : j ∉ [k] := fun e => not_mem_before_self k (List.mem_singleton.mp e ▸ hj)
    exact resolves_copy_iff (beginsNone_of_not_mixed hmixed (beginsNone_of_not_mem hne hd y)
      fun hw hs => .reference hj hn hd hm (shows_of_resolves hw h hs))

/-- One more kind: its walk after the walk for the kinds before is the walk for all of them. -/
theorem resolves_concat_iff {k : Kind} {t s : Text} (hmixed : ¬ Mixed k t) :
    Resolves (k.before ++ [k]) t s ↔ ∃ t', Resolves k.before t t' ∧ Resolves [k] t' s := by
  induction hn : t.length using Nat.strong_induction_on generalizing t s with
  | _ n ih =>
      subst hn
      rcases front_cases (k.before ++ [k]) t with rfl | ⟨j, hj, d, y, hd, rfl⟩ | ⟨u, y, rfl, hnone⟩
      · simp [resolves_nil_iff]
      · have hy : ¬ Mixed k y := fun h => hmixed (by simpa using h.append (unit '&' :: (d ++ [unit ';'])))
        have ih (s : Text) := @ih y.length (by simp; omega) y s hy rfl
        rcases List.mem_append.mp hj with hbefore | hself
        · simp only [resolves_reference_iff hj hd, resolves_reference_iff hbefore hd, ih]
          constructor
          · rintro ⟨m, s', hm, ⟨t', h, h'⟩, rfl⟩
            exact ⟨m ++ t', ⟨m, t', hm, h, rfl⟩,
              (resolves_meaning_iff hbefore hd hm hmixed h).mpr ⟨s', h', rfl⟩⟩
          · rintro ⟨_, ⟨m, t', hm, h, rfl⟩, h'⟩
            obtain ⟨s', hs, rfl⟩ := (resolves_meaning_iff hbefore hd hm hmixed h).mp h'
            exact ⟨m, s', hm, ⟨t', h, hs⟩, rfl⟩
        · obtain rfl := List.mem_singleton.mp hself
          simp only [resolves_reference_iff hj hd, resolves_other_iff (not_mem_before_self j) hd, ih]
          constructor
          · rintro ⟨m, s', hm, ⟨t', h, h'⟩, rfl⟩
            exact ⟨_, ⟨t', h, rfl⟩, (resolves_reference_iff hself hd).mpr ⟨m, s', hm, h', rfl⟩⟩
          · rintro ⟨_, ⟨t', h, rfl⟩, h'⟩
            obtain ⟨m, s', hm, hs, rfl⟩ := (resolves_reference_iff hself hd).mp h'
            exact ⟨m, s', hm, ⟨t', h, hs⟩, rfl⟩
      · have hbefore : BeginsNone k.before (u :: y) := fun j hj => hnone j (List.mem_append_left _ hj)
        have hself : BeginsNone [k] (u :: y) := fun j hj => hnone j (List.mem_append_right _ hj)
        have ih (s : Text) := @ih y.length (by simp) y s (fun h => hmixed h.later) rfl
        have hcopy {t' : Text} (h : Resolves k.before y t') : BeginsNone [k] (u :: t') := by
          by_cases hu : u = unit '&'
          · subst hu
            exact beginsNone_of_not_mixed hmixed hself fun hw hs => .plain (shows_of_resolves hw h hs)
          · exact beginsNone_of_ne [k] hu t'
        simp only [resolves_copy_iff hnone, resolves_copy_iff hbefore, ih]
        constructor
        · rintro ⟨s', ⟨t', h, h'⟩, rfl⟩
          exact ⟨_, ⟨t', h, rfl⟩, .copy (hcopy h) h'⟩
        · rintro ⟨_, ⟨t', h, rfl⟩, h'⟩
          obtain ⟨s', hs, rfl⟩ := (resolves_copy_iff (hcopy h)).mp h'
          exact ⟨s', ⟨t', h, hs⟩, rfl⟩

/-! ### All passes -/

theorem bind_eq_ok_iff {x : Except Fault Text} {f : Text → Except Fault Text} {s : Text} :
    x >>= f = .ok s ↔ ∃ t, x = .ok t ∧ f t = .ok s := by
  cases x with
  | error e => simp [bind, Except.bind]
  | ok t => simp [bind, Except.bind]

theorem resolves_nil_kinds_iff {t s : Text} : Resolves [] t s ↔ t = s := by
  induction t generalizing s with
  | nil => rw [resolves_nil_iff, eq_comm]
  | cons u t ih =>
      have hnone : BeginsNone [] (u :: t) := by simp [BeginsNone]
      simp [resolves_copy_iff hnone, ih, eq_comm]

theorem before_of_prefix {kinds : List Kind} {k : Kind} (h : kinds ++ [k] <+: Kind.all) :
    kinds = k.before := by
  obtain ⟨later, h⟩ := h
  have hnodup : (kinds ++ [k] ++ later).Nodup := by
    rw [h]
    decide
  have hk : ∀ j ∈ kinds, decide (j ≠ k) = true := by
    intro j hj
    exact decide_eq_true ((List.nodup_append.mp (List.nodup_append.mp hnodup).1).2.2 j hj k (List.mem_singleton.mpr rfl))
  rw [Kind.before, ← h, List.append_assoc, List.takeWhile_append_of_pos hk]
  simp

/-- The passes for the first kinds are one walk for all of them. -/
theorem foldlM_pass_eq_ok_iff {kinds : List Kind} {t s : Text} (hkinds : kinds <+: Kind.all)
    (hmixed : ∀ k ∈ kinds, ¬ Mixed k t) :
    (kinds.map Kind.rule).foldlM (fun t rule => pass rule 0 t) t = .ok s ↔ Resolves kinds t s := by
  induction kinds using List.reverseRecOn generalizing s with
  | nil => simp [resolves_nil_kinds_iff, pure, Except.pure]
  | append_singleton kinds k ih =>
      have ih (s : Text) := @ih s ((List.prefix_append kinds [k]).trans hkinds)
        fun j hj => hmixed j (List.mem_append_left _ hj)
      rw [List.map_append, List.foldlM_append, bind_eq_ok_iff]
      obtain rfl := before_of_prefix hkinds
      rw [resolves_concat_iff (hmixed k (by simp))]
      simp [ih, bind_eq_ok_iff, pass_eq_ok_iff, pure, Except.pure]

/-- Without a numeric reference only what is written is shown. -/
theorem prefix_of_shows {k : Kind} {w t : Text} (h : ∀ j ∈ k.before, j.isNumeric = false)
    (hw : Shows k w t) : w <+: t := by
  induction hw with
  | nil => exact List.nil_prefix
  | plain _ ih => exact List.cons_prefix_cons.mpr ⟨rfl, ih⟩
  | reference hj hn => simp [h _ hj] at hn

theorem not_mixed_of_before {k : Kind} (h : ∀ j ∈ k.before, j.isNumeric = false) (t : Text) :
    ¬ Mixed k t := by
  intro hmixed
  induction hmixed with
  | here hf hs hnone =>
      obtain ⟨back, e⟩ := prefix_of_shows h hs
      exact hnone k (List.mem_singleton.mpr rfl) _ back hf (by simpa using e.symm)
  | later _ ih => exact ih

/-- The kinds whose passes come before the hexadecimal one. -/
def Kind.untilDecimal : List Kind := [lt, gt, quot, apos, decimal]

theorem decode_eq_ok_iff {t s : Text} :
    decode t = .ok s ↔ ∃ t₁ t₂, Resolves Kind.untilDecimal t t₁ ∧ Resolves [.hexadecimal] t₁ t₂ ∧
      Resolves [.amp] t₂ s := by
  have hmixed : ∀ k ∈ Kind.untilDecimal, ¬ Mixed k t := by
    intro k hk
    have hbefore : ∀ k ∈ Kind.untilDecimal, ∀ j ∈ k.before, j.isNumeric = false := by decide
    exact not_mixed_of_before (hbefore k hk) t
  unfold decode
  rw [passes_eq_map_rule, show Kind.all = Kind.untilDecimal ++ [.hexadecimal, .amp] from rfl,
    List.map_append, List.foldlM_append, bind_eq_ok_iff]
  simp only [foldlM_pass_eq_ok_iff (by decide) hmixed, List.map_cons, List.map_nil, List.foldlM_cons,
    List.foldlM_nil, bind_eq_ok_iff, pass_eq_ok_iff, pure, Except.pure]
  simp

/-! ### Escaped texts are not mixed -/

theorem head_of_shows {k : Kind} {u v : CodeUnit} {w t : Text} (h : Shows k (u :: w) (v :: t))
    (hv : v ≠ unit '&') : u = v := by
  generalize hx : v :: t = x at h
  cases h with
  | plain => exact (List.head_eq_of_cons_eq hx).symm
  | reference => exact absurd (List.head_eq_of_cons_eq hx) hv

theorem mixed_of_plain_append {k : Kind} {a t : Text} (ha : unit '&' ∉ a) (h : Mixed k (a ++ t)) :
    Mixed k t := by
  induction a with
  | nil => exact h
  | cons u a ih =>
      obtain ⟨hu, ha⟩ := not_or.mp (fun e => ha (List.mem_cons.mpr e))
      generalize hx : u :: a ++ t = x at h
      cases h with
      | here _ hs =>
          subst hx
          exact absurd (head_of_shows hs (Ne.symm hu)) hu
      | later h =>
          cases hx
          exact ih ha h

/-- Nothing but what is written is shown before the next ampersand. -/
theorem shows_plain_append {k : Kind} {w a t : Text} (ha : unit '&' ∉ a) (h : Shows k w (a ++ t)) :
    w <+: a ∨ a <+: w := by
  induction a generalizing w with
  | nil => exact .inr List.nil_prefix
  | cons v a ih =>
      obtain ⟨hv, ha'⟩ := not_or.mp (fun e => ha (List.mem_cons.mpr e))
      rcases w with _ | ⟨u, w⟩
      · exact .inl List.nil_prefix
      · obtain rfl := head_of_shows h (Ne.symm hv)
        generalize hx : u :: a ++ t = x at h
        cases h with
        | plain h =>
            cases hx
            exact (ih ha' h).imp (fun e => List.cons_prefix_cons.mpr ⟨rfl, e⟩)
              fun e => List.cons_prefix_cons.mpr ⟨rfl, e⟩
        | reference => exact absurd (List.head_eq_of_cons_eq hx).symm hv

theorem not_mixed_of_escapes {s t : Text} (h : Escapes Kind.all s t) (k : Kind) : ¬ Mixed k t := by
  induction h with
  | nil =>
      rintro (⟨_, hs, _⟩ | _)
      cases hs
  | @plain u s t hu _ ih =>
      intro hmixed
      exact ih (mixed_of_plain_append (a := [u]) (by simpa using Ne.symm hu) hmixed)
  | @reference k' body m s t _ hspells _ ih =>
      have hf := hspells.forms
      have hplain := ampersand_not_mem_of_forms hf
      intro hmixed
      generalize hx : unit '&' :: (body ++ unit ';' :: t) = x at hmixed
      cases hmixed with
      | later hmixed =>
          cases hx
          exact ih (mixed_of_plain_append hplain (by simpa using hmixed))
      | @here b _ hb hs hnone =>
          have hself := List.mem_singleton.mpr (rfl : k = k)
          cases hs with
          | @plain _ _ y hs =>
              cases hx
              rw [show body ++ unit ';' :: t = body ++ [unit ';'] ++ t by simp] at hs
              have hsame : body = b := by
                rcases shows_plain_append hplain hs with ⟨z, e⟩ | ⟨z, e⟩
                · have e : b ++ unit ';' :: z = body ++ unit ';' :: [] := by simpa using e
                  exact (hb.unique hf e).2.1.symm
                · have e : body ++ unit ';' :: z = b ++ unit ';' :: [] := by simpa using e
                  exact (hf.unique hb e).2.1
              exact hnone k hself b t hb (by rw [hsame])
          | @reference j _ d _ y hj hn hd hm =>
              obtain ⟨rfl, rfl, -⟩ := hf.unique hd (List.tail_eq_of_cons_eq hx)
              rw [hspells.meaning_eq] at hm
              cases hm
              exact not_mem_meaning (ne_amp_of_mem_before hj) hspells (List.mem_singleton.mpr rfl)

/-- Decoding is a walk for the references of the kinds up to decimal, one for hexadecimal and one for the
ampersand, each over the result of the one before; and it is a single walk for all kinds wherever no
reference is mixed. -/
theorem decode_eq_ok_iff_resolves (t s : Text) :
    (decode t = .ok s ↔ ∃ t₁ t₂, Resolves Kind.untilDecimal t t₁ ∧ Resolves [.hexadecimal] t₁ t₂ ∧
      Resolves [.amp] t₂ s) ∧
    ((∀ k, ¬ Mixed k t) → (decode t = .ok s ↔ Resolves Kind.all t s)) := by
  refine ⟨decode_eq_ok_iff, fun hmixed => ?_⟩
  unfold decode
  rw [passes_eq_map_rule]
  exact foldlM_pass_eq_ok_iff (List.prefix_refl _) fun k _ => hmixed k

/-- References of three kinds, one after the other. -/
def escapedTag : Text := lit "&#60;b&#x3E;&amp;lt;"

theorem escapes_escapedTag : Escapes Kind.all (lit "<b>&lt;") escapedTag := by
  have hplain : Escapes Kind.all (lit "lt;" ++ []) (lit "lt;" ++ []) := .plain_append (by decide) .nil
  have hamp := Escapes.reference (by decide) .amp hplain
  have hhex : Kind.hexadecimal.Spells (lit "#x3E") (lit ">") :=
    @Kind.Spells.hexadecimal (lit "3E") (by decide) (List.all_eq_true.mp (by decide)) ⟨by decide, by decide⟩
  have hdec : Kind.decimal.Spells (lit "#60") (lit "<") :=
    @Kind.Spells.decimal (lit "60") (by decide) (List.all_eq_true.mp (by decide)) ⟨by decide, by decide⟩
  exact .reference (by decide) hdec (.plain (by decide) (.reference (by decide) hhex hamp))

theorem resolves_escapedTag : (∀ k, ¬ Mixed k escapedTag) ∧ Resolves Kind.all escapedTag (lit "<b>&lt;") := by
  have hmixed := not_mixed_of_escapes escapes_escapedTag
  exact ⟨hmixed, ((decode_eq_ok_iff_resolves _ _).2 hmixed).mp (decode_of_escapes escapes_escapedTag)⟩

/-- An ampersand given by number opens a reference for the last pass; a single walk keeps it. -/
theorem decode_ampersand_by_number :
    decode (lit "&#38;amp;") = .ok (lit "&") ∧
      ∀ s, Resolves Kind.all (lit "&#38;amp;") s ↔ s = lit "&amp;" := by
  have hwalk : Resolves Kind.all (lit "&#38;amp;") (lit "&amp;") := by
    have hplain : Resolves Kind.all (lit "amp;" ++ []) (lit "amp;" ++ []) :=
      (resolves_plain_append_iff (by decide)).mpr ⟨[], .nil, rfl⟩
    have hf : Kind.decimal.Forms (lit "#38") := .decimal (by decide) (List.all_eq_true.mp (by decide))
    exact .reference (by decide) hf rfl hplain
  refine ⟨rfl, fun s => ⟨fun h => h.unique hwalk, ?_⟩⟩
  rintro rfl
  exact hwalk

end Reference
end Pictogram
