import Mathlib.Data.List.Infix
import Pictogram.Text.Basic

/-! # Where a text is first found

`Text.EndsFirst stop t` says that `t` ends with `stop` and does not hold it before.  A search for `stop` divides the
text behind such a front (`endsFirst_of_offsetOf?`, `offsetOf?_of_endsFirst`), and there is at most one
(`EndsFirst.append_inj`).  It fails exactly if the text does not hold `stop` (`offsetOf?_eq_none_iff`). -/

namespace Pictogram
namespace Text

theorem startsWith_iff {t front : Text} : t.startsWith front ↔ front <+: t := by
  unfold startsWith
  rw [Option.isSome_iff_exists]
  constructor
  · rintro ⟨rest, h⟩
    exact ⟨rest, (stripFront?_eq_some_iff.mp h).symm⟩
  · rintro ⟨rest, h⟩
    exact ⟨rest, stripFront?_eq_some_iff.mpr h.symm⟩

/-- A text that ends with `stop` and does not hold it before. -/
def EndsFirst (stop t : Text) : Prop := stop <:+ t ∧ ∀ front, front <+: t → stop <:+ front → front = t

theorem endsFirst_self (stop : Text) : EndsFirst stop stop := by
  refine ⟨List.suffix_refl stop, ?_⟩
  intro front hfront hstop
  exact hfront.eq_of_length_le hstop.length_le

theorem EndsFirst.cons {stop t : Text} {u : CodeUnit} (h : EndsFirst stop t) (hu : ¬ stop <+: u :: t) :
    EndsFirst stop (u :: t) := by
  refine ⟨h.1.trans (List.suffix_cons u t), ?_⟩
  intro front hfront hstop
  rcases List.prefix_cons_iff.mp hfront with rfl | ⟨front', rfl, hfront'⟩
  · rw [List.suffix_nil.mp hstop] at hu
    exact absurd (List.nil_prefix) hu
  · rcases List.suffix_cons_iff.mp hstop with heq | hstop'
    · exact absurd (heq ▸ hfront) hu
    · rw [h.2 front' hfront' hstop']

/-- A text at the end of the first `stop` in it. -/
theorem endsFirst_of_offsetOf? {stop t : Text} {n k : Nat} (h : offsetOf? stop n t = some k) :
    ∃ front rest, t = front ++ (stop ++ rest) ∧ k = n + front.length ∧ EndsFirst stop (front ++ stop) := by
  induction t generalizing n with
  | nil => cases h
  | cons u t ih =>
      unfold offsetOf? at h
      split at h
      · next hs =>
        cases h
        obtain ⟨rest, hrest⟩ := startsWith_iff.mp hs
        exact ⟨[], rest, hrest.symm, rfl, endsFirst_self stop⟩
      · next hs =>
        obtain ⟨front, rest, rfl, rfl, hends⟩ := ih h
        refine ⟨u :: front, rest, rfl, by simp only [List.length_cons]; omega, ?_⟩
        apply hends.cons
        intro hprefix
        apply hs
        rw [startsWith_iff, ← List.append_assoc]
        exact hprefix.trans (List.prefix_append (u :: (front ++ stop)) rest)

namespace EndsFirst

variable {stop front : Text} {u : CodeUnit}

theorem not_prefix_cons (h : EndsFirst stop (u :: front ++ stop)) : ¬ stop <+: u :: front ++ stop := by
  intro hprefix
  have hlength := congrArg List.length (h.2 stop hprefix (List.suffix_refl stop))
  rw [List.length_append, List.length_cons] at hlength
  omega

theorem of_cons (h : EndsFirst stop (u :: front ++ stop)) : EndsFirst stop (front ++ stop) := by
  refine ⟨List.suffix_append front stop, ?_⟩
  intro t ht hs
  have hcons := h.2 (u :: t) (List.cons_prefix_cons.mpr ⟨rfl, ht⟩) (hs.trans (List.suffix_cons u t))
  exact (List.cons.inj hcons).2

/-- A text is divided in one way only. -/
theorem append_inj {front' rest rest' : Text} (h : EndsFirst stop (front ++ stop)) (h' : EndsFirst stop (front' ++ stop))
    (heq : front ++ (stop ++ rest) = front' ++ (stop ++ rest')) : front = front' ∧ rest = rest' := by
  rw [← List.append_assoc, ← List.append_assoc] at heq
  have hfront : front ++ stop = front' ++ stop := by
    have hprefix : front ++ stop <+: front' ++ stop ++ rest' := ⟨rest, heq⟩
    rcases List.prefix_or_prefix_of_prefix hprefix (List.prefix_append _ _) with hle | hle
    · exact h'.2 _ hle h.1
    · exact (h.2 _ hle h'.1).symm
  rw [hfront] at heq
  exact ⟨List.append_cancel_right hfront, List.append_cancel_left heq⟩

end EndsFirst

/-- The first `stop` is found where it ends a text that does not hold it before. -/
theorem offsetOf?_of_endsFirst {stop front : Text} (hstop : stop ≠ []) (h : EndsFirst stop (front ++ stop))
    (n : Nat) (rest : Text) : offsetOf? stop n (front ++ (stop ++ rest)) = some (n + front.length) := by
  induction front generalizing n with
  | nil =>
      obtain ⟨u, t, rfl⟩ := List.exists_cons_of_ne_nil hstop
      rw [List.nil_append, List.cons_append, offsetOf?, if_pos]
      · rfl
      · exact startsWith_iff.mpr ⟨rest, rfl⟩
  | cons u front ih =>
      have hno : ¬ startsWith (u :: (front ++ (stop ++ rest))) stop := by
        intro hs
        apply h.not_prefix_cons
        apply List.prefix_of_prefix_length_le (startsWith_iff.mp hs) ⟨rest, by simp⟩
        rw [List.length_append]
        omega
      rw [List.cons_append, offsetOf?, if_neg hno, ih h.of_cons, List.length_cons]
      congr 1
      omega

theorem offsetOf?_eq_none_iff {stop t : Text} (hstop : stop ≠ []) (n : Nat) :
    offsetOf? stop n t = none ↔ ¬ stop <:+: t := by
  induction t generalizing n with
  | nil => simp [offsetOf?, hstop]
  | cons u t ih =>
      rw [offsetOf?, List.infix_cons_iff, not_or, ← ih (n + 1), ← startsWith_iff]
      split
      · next hs => simp [hs]
      · next hs => simp [hs]

/-- A text that holds `stop` is divided behind the first one. -/
theorem exists_endsFirst {stop t : Text} (hstop : stop ≠ []) (h : stop <:+: t) :
    ∃ front rest, t = front ++ (stop ++ rest) ∧ EndsFirst stop (front ++ stop) := by
  cases hfound : offsetOf? stop 0 t with
  | none => exact absurd h ((offsetOf?_eq_none_iff hstop 0).mp hfound)
  | some k =>
      obtain ⟨front, rest, ht, -, hends⟩ := endsFirst_of_offsetOf? hfound
      exact ⟨front, rest, ht, hends⟩

end Text
end Pictogram
