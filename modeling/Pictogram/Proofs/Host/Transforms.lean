import Mathlib.Data.List.Basic
import Pictogram.Host.Recorder

/-! # Transforms are popped

`Picture.calls` are the calls of a picture on a host that never fails.  They are balanced: a push is
followed by the drawing calls of its shape and one pop, and pushes do not nest (`balanced_callsOf`,
`calls_eq_of_push`, `calls_eq_of_pop`).

On any other host, `Host.traced` keeps the calls that are made.  Replaying makes the calls of the picture
up to the first one that fails, and after that one more pop if the failure lies strictly between a push
and its pop (`Call.Between`); a failure of that pop takes the place of the first one (`replay_traced`). -/

namespace Pictogram

/-! ### Balance -/

namespace Call

/-- Path and paint calls are all but pushes and pops. -/
def isDrawing : Call → Bool
  | pushTransform _ | popTransform => false
  | _ => true

/-- What a call adds to the number of transforms in force. -/
def delta : Call → Int
  | pushTransform _ => 1
  | popTransform => -1
  | _ => 0

/-- Pushes less pops. -/
def depth : List Call → Int
  | [] => 0
  | c :: calls => c.delta + depth calls

@[simp] theorem depth_nil : depth [] = 0 := rfl

@[simp] theorem depth_cons (c : Call) (calls : List Call) : depth (c :: calls) = c.delta + depth calls := rfl

@[simp] theorem depth_append (calls calls' : List Call) :
    depth (calls ++ calls') = depth calls + depth calls' := by
  induction calls with
  | nil => simp
  | cons c calls ih =>
      rw [List.cons_append, depth_cons, depth_cons, ih]
      omega

theorem delta_eq_zero {c : Call} (h : c.isDrawing) : c.delta = 0 := by
  cases c <;> simp_all [isDrawing, delta]

theorem depth_eq_zero {calls : List Call} (h : ∀ c ∈ calls, c.isDrawing) : depth calls = 0 := by
  induction calls with
  | nil => rfl
  | cons c calls ih =>
      have hc := delta_eq_zero (h c (by simp))
      have hcalls := ih (fun d hd => h d (by simp [hd]))
      rw [depth_cons]
      omega

/-- At most one transform is in force at any time, and none at the end. -/
structure Balanced (calls : List Call) : Prop where
  depth_front : ∀ front, front <+: calls → 0 ≤ depth front ∧ depth front ≤ 1
  depth_all : depth calls = 0

theorem balanced_of_isDrawing {calls : List Call} (h : ∀ c ∈ calls, c.isDrawing) : Balanced calls where
  depth_front front hfront := by
    have := depth_eq_zero (fun c hc => h c (hfront.subset hc))
    omega
  depth_all := depth_eq_zero h

theorem Balanced.append {calls calls' : List Call} (h : Balanced calls) (h' : Balanced calls') :
    Balanced (calls ++ calls') where
  depth_front front hfront := by
    rcases List.prefix_or_prefix_of_prefix hfront (List.prefix_append calls calls') with hf | ⟨front', rfl⟩
    · exact h.depth_front front hf
    · have := h'.depth_front front' ((List.prefix_append_right_inj calls).mp hfront)
      have := h.depth_all
      rw [depth_append]
      omega
  depth_all := by
    rw [depth_append, h.depth_all, h'.depth_all]
    rfl

/-- Drawing calls between a push and a pop are balanced. -/
theorem balanced_frame {calls : List Call} (t : Affine) (h : ∀ c ∈ calls, c.isDrawing) :
    Balanced (pushTransform t :: (calls ++ [popTransform])) where
  depth_front front hfront := by
    rcases List.prefix_cons_iff.mp hfront with rfl | ⟨front', rfl, hf⟩
    · simp
    · rw [depth_cons]
      rcases List.prefix_concat_iff.mp hf with rfl | hf
      · have := depth_eq_zero h
        simp only [depth_append, depth_cons, depth_nil, delta]
        omega
      · have := depth_eq_zero (fun c hc => h c (hf.subset hc))
        simp only [delta]
        omega
  depth_all := by
    have := depth_eq_zero h
    simp only [depth_append, depth_cons, depth_nil, delta]
    omega

/-- The call `c`, made after `front` and before `back`, lies strictly between a push and its pop. -/
def Between (front : List Call) (c : Call) (back : List Call) : Prop :=
  ∃ front' t inner inner' back', front = front' ++ pushTransform t :: inner ∧
    back = inner' ++ popTransform :: back' ∧ ∀ d ∈ inner ++ c :: inner', d.isDrawing

/-- Inside a balanced sequence, such a call finds one transform in force. -/
theorem Between.depth_pos {front back : List Call} {c : Call} (h : Between front c back)
    (hb : Balanced (front ++ c :: back)) : 0 < depth front := by
  obtain ⟨front', t, inner, inner', back', rfl, rfl, hinner⟩ := h
  have hfront := hb.depth_front front' ⟨_, (List.append_assoc front' _ _).symm⟩
  have hzero : depth inner = 0 := depth_eq_zero (fun d hd => hinner d (List.mem_append_left _ hd))
  simp only [depth_append, depth_cons, delta]
  omega

end Call

/-! ### The calls of a picture -/

namespace Shape

/-- The calls of a shape, between a push and a pop if it has a transform. -/
def framedCalls (s : Shape) : List Call :=
  if s.transform.isIdentity then s.calls else .pushTransform s.transform :: (s.calls ++ [.popTransform])

theorem isDrawing_of_mem_calls {s : Shape} {c : Call} (h : c ∈ s.calls) : c.isDrawing := by
  simp only [calls, List.mem_append, List.mem_cons, List.mem_map] at h
  rcases h with ((rfl | ⟨segment, -, rfl⟩) | hfill) | hstroke
  · rfl
  · cases segment <;> rfl
  · unfold fillCalls at hfill
    split at hfill
    · cases hfill
    · rw [List.mem_singleton.mp hfill]
      rfl
  · unfold strokeCalls at hstroke
    split at hstroke
    · cases hstroke
    · rw [List.mem_singleton.mp hstroke]
      rfl

theorem framedCalls_of_isIdentity {s : Shape} (h : s.transform.isIdentity) : s.framedCalls = s.calls := if_pos h

theorem framedCalls_of_not_isIdentity {s : Shape} (h : ¬ s.transform.isIdentity) :
    s.framedCalls = .pushTransform s.transform :: (s.calls ++ [.popTransform]) := if_neg h

theorem balanced_framedCalls (s : Shape) : Call.Balanced s.framedCalls := by
  by_cases h : s.transform.isIdentity
  · rw [framedCalls_of_isIdentity h]
    exact Call.balanced_of_isDrawing (fun _ => isDrawing_of_mem_calls)
  · rw [framedCalls_of_not_isIdentity h]
    exact Call.balanced_frame _ (fun _ => isDrawing_of_mem_calls)

/-- A call of a shape with a transform is its push, its pop, or a drawing call. -/
theorem split_framedCalls {s : Shape} {front back : List Call} {c : Call} (hs : ¬ s.transform.isIdentity)
    (h : s.framedCalls = front ++ c :: back) :
    (front = [] ∧ c = .pushTransform s.transform ∧ back = s.calls ++ [.popTransform]) ∨
      (front = .pushTransform s.transform :: s.calls ∧ c = .popTransform ∧ back = []) ∨
      ∃ inner inner', front = .pushTransform s.transform :: inner ∧ s.calls = inner ++ c :: inner' ∧
        back = inner' ++ [.popTransform] := by
  rw [framedCalls_of_not_isIdentity hs] at h
  rcases front with _ | ⟨d, inner⟩
  · obtain ⟨rfl, rfl⟩ := List.cons.inj h
    exact .inl ⟨rfl, rfl, rfl⟩
  · obtain ⟨rfl, hrest⟩ := List.cons.inj h
    rcases List.eq_nil_or_concat' back with rfl | ⟨inner', d, rfl⟩
    · obtain ⟨rfl, hc⟩ := List.append_inj' hrest rfl
      exact .inr (.inl ⟨rfl, (List.cons.inj hc).1.symm, rfl⟩)
    · have hconcat : s.calls ++ [.popTransform] = (inner ++ c :: inner') ++ [d] :=
        hrest.trans (List.append_assoc inner (c :: inner') [d]).symm
      obtain ⟨hcalls, hd⟩ := List.append_inj' hconcat rfl
      obtain ⟨rfl, -⟩ := List.cons.inj hd
      exact .inr (.inr ⟨inner, inner', rfl, hcalls, rfl⟩)

/-- The calls of shapes in order. -/
def callsOf (shapes : List Shape) : List Call := shapes.flatMap framedCalls

@[simp] theorem callsOf_nil : callsOf [] = [] := rfl

@[simp] theorem callsOf_cons (s : Shape) (shapes : List Shape) :
    callsOf (s :: shapes) = s.framedCalls ++ callsOf shapes := List.flatMap_cons

@[simp] theorem callsOf_append (shapes shapes' : List Shape) :
    callsOf (shapes ++ shapes') = callsOf shapes ++ callsOf shapes' := List.flatMap_append

theorem balanced_callsOf (shapes : List Shape) : Call.Balanced (callsOf shapes) := by
  induction shapes with
  | nil => exact Call.balanced_of_isDrawing (by simp)
  | cons s shapes ih =>
      rw [callsOf_cons]
      exact s.balanced_framedCalls.append ih

/-- Every call belongs to a shape. -/
theorem split_callsOf {shapes : List Shape} {front back : List Call} {c : Call}
    (h : callsOf shapes = front ++ c :: back) :
    ∃ before s after inner inner', shapes = before ++ s :: after ∧ s.framedCalls = inner ++ c :: inner' ∧
      front = callsOf before ++ inner ∧ back = inner' ++ callsOf after := by
  induction shapes generalizing front with
  | nil => simp at h
  | cons s shapes ih =>
      rw [callsOf_cons] at h
      rcases List.append_eq_append_iff.mp h with ⟨rest, rfl, hrest⟩ | ⟨rest, hs, hrest⟩
      · obtain ⟨before, s', after, inner, inner', rfl, hs', rfl, rfl⟩ := ih hrest
        exact ⟨s :: before, s', after, inner, inner', rfl, hs', by simp, rfl⟩
      · rcases rest with _ | ⟨d, inner'⟩
        · have hnext : callsOf shapes = [] ++ c :: back := hrest.symm
          obtain ⟨before, s', after, inner, inner', rfl, hs', hfront, rfl⟩ := ih hnext
          refine ⟨s :: before, s', after, inner, inner', rfl, hs', ?_, rfl⟩
          rw [List.append_nil] at hs
          rw [callsOf_cons, List.append_assoc, ← hfront, List.append_nil, hs]
        · obtain ⟨rfl, rfl⟩ := List.cons.inj hrest
          exact ⟨[], s, shapes, front, inner', rfl, hs, by simp, rfl⟩

end Shape

/-- The calls of a picture on a host that never fails. -/
def Picture.calls (p : Picture) : List Call := Shape.callsOf p.shapes

/-- A push is followed by the drawing calls of its shape and one pop, then by the next shapes. -/
theorem Picture.calls_eq_of_push {p : Picture} {front back : List Call} {t : Affine}
    (h : p.calls = front ++ .pushTransform t :: back) :
    ∃ before s after, p.shapes = before ++ s :: after ∧ s.transform = t ∧ front = Shape.callsOf before ∧
      back = s.calls ++ .popTransform :: Shape.callsOf after := by
  obtain ⟨before, s, after, inner, inner', hshapes, hs, rfl, rfl⟩ := Shape.split_callsOf h
  have hmem : .pushTransform t ∈ s.framedCalls := by simp [hs]
  by_cases hid : s.transform.isIdentity
  · rw [Shape.framedCalls_of_isIdentity hid] at hmem
    cases Shape.isDrawing_of_mem_calls hmem
  · rcases Shape.split_framedCalls hid hs with ⟨rfl, hc, rfl⟩ | ⟨-, hc, -⟩ | ⟨_, _, -, hcalls, -⟩
    · exact ⟨before, s, after, hshapes, (Call.pushTransform.inj hc).symm, by simp, by simp⟩
    · cases hc
    · have hcall : Call.pushTransform t ∈ s.calls := by simp [hcalls]
      cases Shape.isDrawing_of_mem_calls hcall

/-- A pop follows the drawing calls of its shape, and these follow its push. -/
theorem Picture.calls_eq_of_pop {p : Picture} {front back : List Call}
    (h : p.calls = front ++ .popTransform :: back) :
    ∃ before s after, p.shapes = before ++ s :: after ∧
      front = Shape.callsOf before ++ .pushTransform s.transform :: s.calls ∧ back = Shape.callsOf after := by
  obtain ⟨before, s, after, inner, inner', hshapes, hs, rfl, rfl⟩ := Shape.split_callsOf h
  have hmem : .popTransform ∈ s.framedCalls := by simp [hs]
  by_cases hid : s.transform.isIdentity
  · rw [Shape.framedCalls_of_isIdentity hid] at hmem
    cases Shape.isDrawing_of_mem_calls hmem
  · rcases Shape.split_framedCalls hid hs with ⟨-, hc, -⟩ | ⟨rfl, -, rfl⟩ | ⟨_, _, -, hcalls, -⟩
    · cases hc
    · exact ⟨before, s, after, hshapes, rfl, by simp⟩
    · have hcall : Call.popTransform ∈ s.calls := by simp [hcalls]
      cases Shape.isDrawing_of_mem_calls hcall

/-- A call lies between a push and its pop exactly if it is a drawing call of a shape with a transform. -/
theorem Shape.between_iff {before after : List Shape} {s : Shape} {inner inner' : List Call} {c : Call}
    (hs : s.framedCalls = inner ++ c :: inner') :
    Call.Between (callsOf before ++ inner) c (inner' ++ callsOf after) ↔
      ¬ s.transform.isIdentity ∧ c.isDrawing := by
  constructor
  · intro hbetween
    have hdrawing : c.isDrawing := by
      obtain ⟨_, _, _, _, _, -, -, hall⟩ := hbetween
      exact hall c (by simp)
    refine ⟨fun hid => ?_, hdrawing⟩
    have hall : callsOf (before ++ s :: after) = (callsOf before ++ inner) ++ c :: (inner' ++ callsOf after) := by
      simp [hs]
    have hpos := hbetween.depth_pos (hall ▸ balanced_callsOf _)
    have hinner : Call.depth inner = 0 := by
      apply Call.depth_eq_zero
      intro d hd
      rw [framedCalls_of_isIdentity hid] at hs
      exact isDrawing_of_mem_calls (by rw [hs]; exact List.mem_append_left _ hd)
    have hbefore := (balanced_callsOf before).depth_all
    rw [Call.depth_append] at hpos
    omega
  · rintro ⟨hid, hdrawing⟩
    rcases split_framedCalls hid hs with ⟨-, rfl, -⟩ | ⟨-, rfl, -⟩ | ⟨front, back, rfl, hcalls, rfl⟩
    · cases hdrawing
    · cases hdrawing
    · refine ⟨callsOf before, s.transform, front, back, callsOf after, rfl, by simp, ?_⟩
      intro d hd
      exact isDrawing_of_mem_calls (hcalls ▸ hd)

/-! ### Calls that are made -/

namespace Host

variable {κ σ ε : Type} {h : Host κ σ ε}

/-- The host together with the calls made on it, those that fail included. -/
def traced (h : Host κ σ ε) : Host κ (List κ × σ) ε := fun c (made, s) =>
  match h c s with
  | .ok _ s => .ok () (made ++ [c], s)
  | .error e s => .error e (made ++ [c], s)

/-- An outcome without the calls that were made. -/
def untraced : EStateM.Result ε (List κ × σ) Unit → EStateM.Result ε σ Unit
  | .ok _ (_, s) => .ok () s
  | .error e (_, s) => .error e s

theorem traced_of_ok {c : κ} {s s' : σ} (hc : h c s = .ok () s') (made : List κ) :
    h.traced c (made, s) = .ok () (made ++ [c], s') := by simp only [traced, hc]

theorem traced_of_error {c : κ} {s s' : σ} {e : ε} (hc : h c s = .error e s') (made : List κ) :
    h.traced c (made, s) = .error e (made ++ [c], s') := by simp only [traced, hc]

theorem bind_of_ok {x : EStateM ε σ Unit} {f : Unit → EStateM ε σ Unit} {s s' : σ} (hx : x s = .ok () s') :
    (x >>= f) s = f () s' := by simp only [bind, EStateM.bind, hx]

theorem bind_of_error {x : EStateM ε σ Unit} {f : Unit → EStateM ε σ Unit} {s s' : σ} {e : ε}
    (hx : x s = .error e s') : (x >>= f) s = .error e s' := by simp only [bind, EStateM.bind, hx]

theorem perform_cons_eq_ok {c : κ} {cs : List κ} {s s' : σ} (hcs : h.perform (c :: cs) s = .ok () s') :
    ∃ s₁, h c s = .ok () s₁ ∧ h.perform cs s₁ = .ok () s' := by
  unfold perform at hcs
  cases hc : h c s with
  | ok u s₁ => exact ⟨s₁, rfl, by rwa [bind_of_ok hc] at hcs⟩
  | error e s₁ =>
      rw [bind_of_error hc] at hcs
      cases hcs

theorem perform_singleton_eq_ok {c : κ} {s s' : σ} (hc : h.perform [c] s = .ok () s') : h c s = .ok () s' := by
  obtain ⟨s₁, hc₁, hnil⟩ := perform_cons_eq_ok hc
  cases hnil
  exact hc₁

theorem perform_append (h : Host κ σ ε) (cs cs' : List κ) :
    h.perform (cs ++ cs') = (do h.perform cs; h.perform cs') := by
  induction cs with
  | nil => simp [perform]
  | cons c cs ih => simp [perform, ih]

theorem perform_append_eq_ok {cs cs' : List κ} {s s' : σ} (hcs : h.perform (cs ++ cs') s = .ok () s') :
    ∃ s₁, h.perform cs s = .ok () s₁ ∧ h.perform cs' s₁ = .ok () s' := by
  induction cs generalizing s with
  | nil => exact ⟨s, rfl, hcs⟩
  | cons c cs ih =>
      obtain ⟨s₁, hc, hrest⟩ := perform_cons_eq_ok hcs
      obtain ⟨s₂, hs₂, hcs'⟩ := ih hrest
      refine ⟨s₂, ?_, hcs'⟩
      unfold perform
      rw [bind_of_ok hc, hs₂]

/-- Calls that all succeed are all made. -/
theorem perform_traced_of_ok {cs : List κ} {s s' : σ} (hcs : h.perform cs s = .ok () s') (made : List κ) :
    h.traced.perform cs (made, s) = .ok () (made ++ cs, s') := by
  induction cs generalizing s made with
  | nil =>
      cases hcs
      rw [List.append_nil]
      rfl
  | cons c cs ih =>
      obtain ⟨s₁, hc, hrest⟩ := perform_cons_eq_ok hcs
      unfold perform
      rw [bind_of_ok (traced_of_ok hc made), ih hrest, List.append_assoc]
      rfl

/-- Calls are made up to the first one that fails. -/
theorem perform_traced_of_error {front : List κ} {c : κ} {s s₁ s₂ : σ} {e : ε}
    (hfront : h.perform front s = .ok () s₁) (hc : h c s₁ = .error e s₂) (made back : List κ) :
    h.traced.perform (front ++ c :: back) (made, s) = .error e (made ++ front ++ [c], s₂) := by
  rw [perform_append, bind_of_ok (perform_traced_of_ok hfront made)]
  exact bind_of_error (traced_of_error hc _)

theorem ensuring_of_ok {body : EStateM ε σ Unit} {s s' : σ} (hb : body s = .ok () s') (last : κ) :
    h.ensuring body last s = h last s' := by simp only [ensuring, hb]

theorem ensuring_of_error {body : EStateM ε σ Unit} {s s₁ s₂ : σ} {e : ε} {last : κ}
    (hb : body s = .error e s₁) (hl : h last s₁ = .ok () s₂) : h.ensuring body last s = .error e s₂ := by
  simp only [ensuring, hb, hl]

theorem ensuring_of_errors {body : EStateM ε σ Unit} {s s₁ s₂ : σ} {e e' : ε} {last : κ}
    (hb : body s = .error e s₁) (hl : h last s₁ = .error e' s₂) : h.ensuring body last s = .error e' s₂ := by
  simp only [ensuring, hb, hl]

end Host

/-! ### Replaying -/

section

variable {σ ε : Type} {h : Host Call σ ε}

namespace Shape

theorem replay_of_isIdentity {shape : Shape} (hid : shape.transform.isIdentity) :
    shape.replay h = h.perform shape.calls := by
  rw [replay_eq, if_pos hid]

theorem replay_of_push {shape : Shape} {s s₁ : σ} (hid : ¬ shape.transform.isIdentity)
    (hpush : h (.pushTransform shape.transform) s = .ok () s₁) :
    shape.replay h s = h.ensuring (h.perform shape.calls) .popTransform s₁ := by
  rw [replay_eq, if_neg hid]
  exact Host.bind_of_ok hpush

theorem replay_of_push_error {shape : Shape} {s s₁ : σ} {e : ε} (hid : ¬ shape.transform.isIdentity)
    (hpush : h (.pushTransform shape.transform) s = .error e s₁) : shape.replay h s = .error e s₁ := by
  rw [replay_eq, if_neg hid]
  exact Host.bind_of_error hpush

/-- If no call of a shape fails, all its calls are made. -/
theorem replay_traced_of_ok {shape : Shape} {s s' : σ} (hs : h.perform shape.framedCalls s = .ok () s')
    (made : List Call) : shape.replay h.traced (made, s) = .ok () (made ++ shape.framedCalls, s') := by
  by_cases hid : shape.transform.isIdentity
  · rw [framedCalls_of_isIdentity hid] at hs ⊢
    rw [replay_of_isIdentity hid]
    exact Host.perform_traced_of_ok hs made
  · rw [framedCalls_of_not_isIdentity hid] at hs ⊢
    obtain ⟨s₁, hpush, hrest⟩ := Host.perform_cons_eq_ok hs
    obtain ⟨s₂, hcalls, hpop⟩ := Host.perform_append_eq_ok hrest
    rw [replay_of_push hid (Host.traced_of_ok hpush made),
      Host.ensuring_of_ok (Host.perform_traced_of_ok hcalls _),
      Host.traced_of_ok (Host.perform_singleton_eq_ok hpop)]
    simp

/-- If a call outside a transform fails, or a push or a pop, it is the last one. -/
theorem replay_traced_outside {shape : Shape} {front back : List Call} {c : Call} {s s₁ s₂ : σ} {e : ε}
    (hs : shape.framedCalls = front ++ c :: back) (hfront : h.perform front s = .ok () s₁)
    (hc : h c s₁ = .error e s₂) (hout : ¬ (¬ shape.transform.isIdentity ∧ c.isDrawing)) (made : List Call) :
    shape.replay h.traced (made, s) = .error e (made ++ front ++ [c], s₂) := by
  by_cases hid : shape.transform.isIdentity
  · rw [replay_of_isIdentity hid, ← framedCalls_of_isIdentity hid, hs]
    exact Host.perform_traced_of_error hfront hc made back
  · rcases split_framedCalls hid hs with ⟨rfl, rfl, -⟩ | ⟨rfl, rfl, -⟩ | ⟨inner, inner', rfl, hcalls, -⟩
    · cases hfront
      rw [replay_of_push_error hid (Host.traced_of_error hc made), List.append_nil]
    · obtain ⟨s₀, hpush, hcalls⟩ := Host.perform_cons_eq_ok hfront
      rw [replay_of_push hid (Host.traced_of_ok hpush made),
        Host.ensuring_of_ok (Host.perform_traced_of_ok hcalls _), Host.traced_of_error hc]
      simp
    · have hmem : c ∈ shape.calls := by simp [hcalls]
      exact absurd ⟨hid, isDrawing_of_mem_calls hmem⟩ hout

/-- If a drawing call inside a transform fails, what is left to do is the pop. -/
theorem replay_traced_inside {shape : Shape} {front back : List Call} {c : Call} {s s₁ s₂ : σ} {e : ε}
    (hs : shape.framedCalls = front ++ c :: back) (hfront : h.perform front s = .ok () s₁)
    (hc : h c s₁ = .error e s₂) (hin : ¬ shape.transform.isIdentity ∧ c.isDrawing) (made : List Call) :
    ∃ x, h.traced.perform shape.calls x = .error e (made ++ front ++ [c], s₂) ∧
      shape.replay h.traced (made, s) = h.traced.ensuring (h.traced.perform shape.calls) .popTransform x := by
  obtain ⟨hid, hdrawing⟩ := hin
  rcases split_framedCalls hid hs with ⟨-, rfl, -⟩ | ⟨-, rfl, -⟩ | ⟨inner, inner', rfl, hcalls, -⟩
  · cases hdrawing
  · cases hdrawing
  · obtain ⟨s₀, hpush, hinner⟩ := Host.perform_cons_eq_ok hfront
    refine ⟨(made ++ [.pushTransform shape.transform], s₀), ?_, replay_of_push hid (Host.traced_of_ok hpush made)⟩
    rw [hcalls, Host.perform_traced_of_error hinner hc]
    simp

theorem replayAll_append (h : Host Call σ ε) (shapes shapes' : List Shape) :
    replayAll h (shapes ++ shapes') = (do replayAll h shapes; replayAll h shapes') := by
  induction shapes with
  | nil => simp [replayAll]
  | cons s shapes ih => simp [replayAll, ih]

theorem replayAll_traced_of_ok {shapes : List Shape} {s s' : σ} (hs : h.perform (callsOf shapes) s = .ok () s')
    (made : List Call) : replayAll h.traced shapes (made, s) = .ok () (made ++ callsOf shapes, s') := by
  induction shapes generalizing s made with
  | nil =>
      cases hs
      rw [callsOf_nil, List.append_nil]
      rfl
  | cons shape shapes ih =>
      rw [callsOf_cons] at hs ⊢
      obtain ⟨s₁, hshape, hrest⟩ := Host.perform_append_eq_ok hs
      unfold replayAll
      rw [Host.bind_of_ok (replay_traced_of_ok hshape made), ih hrest, List.append_assoc]

/-- Replaying ends with the first shape that fails. -/
theorem replayAll_traced_of_error {before after : List Shape} {shape : Shape} {s s₁ : σ} {e : ε}
    {x : List Call × σ} (hbefore : h.perform (callsOf before) s = .ok () s₁)
    (hshape : shape.replay h.traced (callsOf before, s₁) = .error e x) :
    replayAll h.traced (before ++ shape :: after) ([], s) = .error e x := by
  rw [replayAll_append, Host.bind_of_ok (replayAll_traced_of_ok hbefore [])]
  unfold replayAll
  exact Host.bind_of_error hshape

end Shape

/-! ### Tracing is harmless -/

theorem Host.perform_eq_untraced (cs : List Call) (made : List Call) (s : σ) :
    h.perform cs s = untraced (h.traced.perform cs (made, s)) := by
  induction cs generalizing made s with
  | nil => rfl
  | cons c cs ih =>
      unfold perform
      cases hc : h c s with
      | ok u s₁ => rw [bind_of_ok hc, bind_of_ok (traced_of_ok hc made), ih]
      | error e s₁ => rw [bind_of_error hc, bind_of_error (traced_of_error hc made)]; rfl

theorem Shape.replay_eq_untraced (shape : Shape) (made : List Call) (s : σ) :
    shape.replay h s = Host.untraced (shape.replay h.traced (made, s)) := by
  by_cases hid : shape.transform.isIdentity
  · rw [replay_of_isIdentity hid, replay_of_isIdentity hid]
    exact Host.perform_eq_untraced shape.calls made s
  · cases hpush : h (.pushTransform shape.transform) s with
    | error e s₁ =>
        rw [replay_of_push_error hid hpush, replay_of_push_error hid (Host.traced_of_error hpush made)]
        rfl
    | ok u s₁ =>
        rw [replay_of_push hid hpush, replay_of_push hid (Host.traced_of_ok hpush made)]
        have hbody := Host.perform_eq_untraced (h := h) shape.calls (made ++ [.pushTransform shape.transform]) s₁
        unfold Host.ensuring
        rw [hbody]
        cases h.traced.perform shape.calls (made ++ [.pushTransform shape.transform], s₁) with
        | ok u x =>
            simp only [Host.untraced, Host.traced]
            cases h .popTransform x.2 <;> rfl
        | error e x =>
            simp only [Host.untraced, Host.traced]
            cases h .popTransform x.2 <;> rfl

/-- Keeping the calls does not change what a replay does. -/
theorem Shape.replayAll_eq_untraced (shapes : List Shape) (made : List Call) (s : σ) :
    replayAll h shapes s = Host.untraced (replayAll h.traced shapes (made, s)) := by
  induction shapes generalizing made s with
  | nil => rfl
  | cons shape shapes ih =>
      have hshape := replay_eq_untraced (h := h) shape made s
      unfold replayAll
      cases hx : shape.replay h.traced (made, s) with
      | ok u x =>
          rw [hx] at hshape
          rw [Host.bind_of_ok hshape, Host.bind_of_ok hx]
          exact ih x.1 x.2
      | error e x =>
          rw [hx] at hshape
          rw [Host.bind_of_error hshape, Host.bind_of_error hx]
          rfl

end

/-- A recorder that refuses nothing takes all calls. -/
theorem Recorder.perform_host {κ : Type} (name : κ → Text) (cs : List κ) (calls : Array κ) :
    (host name []).perform cs calls = .ok () (calls ++ cs.toArray) := by
  induction cs generalizing calls with
  | nil => simp [Host.perform, pure, EStateM.pure]
  | cons c cs ih =>
      have hc : host name [] c calls = .ok () (calls.push c) := by simp [host]
      unfold Host.perform
      rw [Host.bind_of_ok hc, ih]
      simp

namespace Picture

/-- If no call fails, the calls of the picture are made. -/
theorem replay_traced_of_ok {σ ε : Type} {p : Picture} {h : Host Call σ ε} {s s' : σ}
    (hp : h.perform p.calls s = .ok () s') : p.replay h.traced ([], s) = .ok () (p.calls, s') :=
  Shape.replayAll_traced_of_ok hp []

/-- A failure outside a transform is the end. -/
theorem replay_traced_of_not_between {σ ε : Type} {p : Picture} {h : Host Call σ ε} {front back : List Call}
    {c : Call} {s s₁ s₂ : σ} {e : ε} (hp : p.calls = front ++ c :: back) (hfront : h.perform front s = .ok () s₁)
    (hc : h c s₁ = .error e s₂) (hout : ¬ Call.Between front c back) :
    p.replay h.traced ([], s) = .error e (front ++ [c], s₂) := by
  obtain ⟨before, shape, after, inner, inner', hshapes, hs, rfl, rfl⟩ := Shape.split_callsOf hp
  obtain ⟨s₀, hbefore, hinner⟩ := Host.perform_append_eq_ok hfront
  unfold replay
  rw [hshapes]
  apply Shape.replayAll_traced_of_error hbefore
  exact Shape.replay_traced_outside hs hinner hc (fun hin => hout ((Shape.between_iff hs).mpr hin)) _

/-- After a failure inside a transform, the pop is made and nothing else. -/
theorem replay_traced_of_between {σ ε : Type} {p : Picture} {h : Host Call σ ε} {front back : List Call}
    {c : Call} {s s₁ s₂ : σ} {e : ε} (hp : p.calls = front ++ c :: back) (hfront : h.perform front s = .ok () s₁)
    (hc : h c s₁ = .error e s₂) (hin : Call.Between front c back) :
    (∀ s₃, h .popTransform s₂ = .ok () s₃ →
        p.replay h.traced ([], s) = .error e (front ++ [c, .popTransform], s₃)) ∧
      ∀ e' s₃, h .popTransform s₂ = .error e' s₃ →
        p.replay h.traced ([], s) = .error e' (front ++ [c, .popTransform], s₃) := by
  obtain ⟨before, shape, after, inner, inner', hshapes, hs, rfl, rfl⟩ := Shape.split_callsOf hp
  obtain ⟨s₀, hbefore, hinner⟩ := Host.perform_append_eq_ok hfront
  obtain ⟨x, hbody, hreplay⟩ :=
    Shape.replay_traced_inside hs hinner hc ((Shape.between_iff hs).mp hin) (Shape.callsOf before)
  unfold replay
  rw [hshapes]
  constructor
  · intro s₃ hpop
    apply Shape.replayAll_traced_of_error hbefore
    rw [hreplay, Host.ensuring_of_error hbody (Host.traced_of_ok hpop _)]
    simp
  · intro e' s₃ hpop
    apply Shape.replayAll_traced_of_error hbefore
    rw [hreplay, Host.ensuring_of_errors hbody (Host.traced_of_error hpop _)]
    simp

/-- **Transforms are popped whatever fails.**  The calls of a picture are those that a recorder sees; in
them, a push is followed by the drawing calls of its shape and one pop, and pushes do not nest.  On any
host, the calls made are these, up to the first one that fails; if that one lies strictly between a push
and its pop, the pop is made too, and a failure of the pop is the one that is reported. -/
theorem replay_traced (p : Picture) :
    p.replay (Recorder.host Call.name []) #[] = .ok () p.calls.toArray ∧
    Call.Balanced p.calls ∧
    (∀ front t back, p.calls = front ++ .pushTransform t :: back →
      ∃ before s after, p.shapes = before ++ s :: after ∧ s.transform = t ∧ front = Shape.callsOf before ∧
        back = s.calls ++ .popTransform :: Shape.callsOf after ∧ ∀ c ∈ s.calls, c.isDrawing) ∧
    (∀ front back, p.calls = front ++ .popTransform :: back →
      ∃ before s after, p.shapes = before ++ s :: after ∧
        front = Shape.callsOf before ++ .pushTransform s.transform :: s.calls ∧ back = Shape.callsOf after) ∧
    ∀ (σ ε : Type) (h : Host Call σ ε) (s : σ),
      p.replay h s = Host.untraced (p.replay h.traced ([], s)) ∧
      (∀ s', h.perform p.calls s = .ok () s' → p.replay h.traced ([], s) = .ok () (p.calls, s')) ∧
      ∀ front c back s₁ e s₂, p.calls = front ++ c :: back → h.perform front s = .ok () s₁ →
        h c s₁ = .error e s₂ →
        (¬ Call.Between front c back → p.replay h.traced ([], s) = .error e (front ++ [c], s₂)) ∧
        (Call.Between front c back →
          (∀ s₃, h .popTransform s₂ = .ok () s₃ →
            p.replay h.traced ([], s) = .error e (front ++ [c, .popTransform], s₃)) ∧
          ∀ e' s₃, h .popTransform s₂ = .error e' s₃ →
            p.replay h.traced ([], s) = .error e' (front ++ [c, .popTransform], s₃)) := by
  refine ⟨?_, Shape.balanced_callsOf p.shapes, ?_, ?_, ?_⟩
  · have hall := Recorder.perform_host Call.name p.calls #[]
    have huntraced : p.replay (Recorder.host Call.name []) #[] =
        Host.untraced (p.replay (Recorder.host Call.name []).traced ([], #[])) :=
      Shape.replayAll_eq_untraced p.shapes [] #[]
    rw [huntraced, replay_traced_of_ok hall, Host.untraced, Array.empty_append]
  · intro front t back hpush
    obtain ⟨before, s, after, hshapes, ht, hfront, hback⟩ := calls_eq_of_push hpush
    exact ⟨before, s, after, hshapes, ht, hfront, hback, fun _ => Shape.isDrawing_of_mem_calls⟩
  · intro front back hpop
    exact calls_eq_of_pop hpop
  · intro σ ε h s
    refine ⟨Shape.replayAll_eq_untraced p.shapes [] s, fun s' => replay_traced_of_ok, ?_⟩
    intro front c back s₁ e s₂ hp hfront hc
    exact ⟨replay_traced_of_not_between hp hfront hc, replay_traced_of_between hp hfront hc⟩

/-- A shape with a transform between two without. -/
def sampleScene : Picture :=
  ⟨none, [⟨.identity, [.moveTo ⟨1, 2⟩], .solid ⟨7⟩, .none, ⟨1, [], []⟩⟩,
    ⟨⟨2, 0, 0, 2, 0, 0⟩, [.lineTo ⟨3, 4⟩, .close], .solid ⟨8⟩, .none, ⟨1, [], []⟩⟩,
    ⟨.identity, [], .solid ⟨9⟩, .none, ⟨1, [], []⟩⟩]⟩

/-- The line of the second shape fails, and so does the pop after it. -/
theorem replay_sampleScene :
    sampleScene.replay
        (Recorder.host Call.name [⟨lit "lineTo", 0⟩, ⟨lit "popTransform", 0⟩]).traced ([], #[]) =
      .error ⟨lit "popTransform", 0⟩ ([.beginPath, .moveTo ⟨1, 2⟩, .fill ⟨7⟩, .pushTransform ⟨2, 0, 0, 2, 0, 0⟩,
          .beginPath, .lineTo ⟨3, 4⟩, .popTransform],
        #[.beginPath, .moveTo ⟨1, 2⟩, .fill ⟨7⟩, .pushTransform ⟨2, 0, 0, 2, 0, 0⟩, .beginPath, .lineTo ⟨3, 4⟩,
          .popTransform]) := by
  obtain ⟨-, -, -, -, hhosts⟩ := replay_traced sampleScene
  obtain ⟨-, -, hfails⟩ :=
    hhosts _ _ (Recorder.host Call.name [⟨lit "lineTo", 0⟩, ⟨lit "popTransform", 0⟩]) #[]
  refine (hfails [.beginPath, .moveTo ⟨1, 2⟩, .fill ⟨7⟩, .pushTransform ⟨2, 0, 0, 2, 0, 0⟩, .beginPath]
    (.lineTo ⟨3, 4⟩) [.closePath, .fill ⟨8⟩, .popTransform, .beginPath, .fill ⟨9⟩] _ _ _
    (by decide +kernel) rfl rfl).2 ?_ |>.2 _ _ rfl
  exact ⟨[.beginPath, .moveTo ⟨1, 2⟩, .fill ⟨7⟩], ⟨2, 0, 0, 2, 0, 0⟩, [.beginPath], [.closePath, .fill ⟨8⟩],
    [.beginPath, .fill ⟨9⟩], rfl, rfl, by decide⟩

end Picture
end Pictogram
