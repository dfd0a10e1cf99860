import Pictogram.Proofs.Host.Canvas

/-! # Saves and restores of a canvas context

A push on the host is two calls on the context, a save and a transform, and only a push that succeeds is
followed by its pop.  So a context is left with a save that is not restored exactly if a transform has failed;
every other failure is followed by the restore that is due (`replay_logged`).

`Host.logged` keeps the calls made on a context together with whether they returned.  `Canvas.Logs` says what
an action adds to the log when it succeeds and when it fails.  A drawing call adds quiet entries, a push adds
a save and a transform, or fails at one of them, and a pop adds a restore; a shape and a picture are put
together from these. -/

namespace Pictogram

/-! ### Logs -/

/-- Calls on a canvas context in order, each with whether it returned. -/
abbrev CanvasLog := List (CanvasCall × Bool)

namespace CanvasLog

variable {log log' : CanvasLog}

/-- The number of saves that returned. -/
def saves (log : CanvasLog) : Nat := log.count (.save, true)

/-- The number of restores made. -/
def restores (log : CanvasLog) : Nat := log.countP fun entry => entry.1 = .restore

@[simp] theorem saves_nil : saves [] = 0 := rfl

@[simp] theorem restores_nil : restores [] = 0 := rfl

@[simp] theorem saves_cons (entry : CanvasCall × Bool) (log : CanvasLog) :
    saves (entry :: log) = saves log + if entry = (.save, true) then 1 else 0 := by
  simp [saves, List.count_cons]

@[simp] theorem restores_cons (entry : CanvasCall × Bool) (log : CanvasLog) :
    restores (entry :: log) = restores log + if entry.1 = .restore then 1 else 0 := by
  simp [restores, List.countP_cons]

@[simp] theorem saves_append (log log' : CanvasLog) : saves (log ++ log') = log.saves + log'.saves :=
  List.count_append

@[simp] theorem restores_append (log log' : CanvasLog) :
    restores (log ++ log') = log.restores + log'.restores := List.countP_append

theorem restores_le_of_prefix (h : log' <+: log) : log'.restores ≤ log.restores := h.sublist.countP_le

/-- At no time are there more restores than saves, and in the end there are as many. -/
structure Balanced (log : CanvasLog) : Prop where
  restores_le : ∀ front, front <+: log → restores front ≤ saves front
  restores_eq : log.restores = log.saves

theorem Balanced.append (h : Balanced log) (h' : Balanced log') : Balanced (log ++ log') where
  restores_le front hfront := by
    rcases List.prefix_or_prefix_of_prefix hfront (List.prefix_append log log') with hf | ⟨front', rfl⟩
    · exact h.restores_le front hf
    · have := h'.restores_le front' ((List.prefix_append_right_inj log).mp hfront)
      have := h.restores_eq
      rw [restores_append, saves_append]
      omega
  restores_eq := by rw [restores_append, saves_append, h.restores_eq, h'.restores_eq]

/-- Entries of calls that neither save nor restore nor transform. -/
def Quiet (log : CanvasLog) : Prop :=
  ∀ entry ∈ log, entry.1 ≠ .save ∧ entry.1 ≠ .restore ∧ ∀ t, entry.1 ≠ .transform t

theorem quiet_nil : Quiet [] := by simp [Quiet]

theorem Quiet.append (h : Quiet log) (h' : Quiet log') : Quiet (log ++ log') := by
  intro entry hentry
  exact (List.mem_append.mp hentry).elim (h entry) (h' entry)

theorem Quiet.of_prefix (h : Quiet log) (hfront : log' <+: log) : Quiet log' :=
  fun entry hentry => h entry (hfront.subset hentry)

theorem Quiet.saves_eq (h : Quiet log) : log.saves = 0 :=
  List.count_eq_zero.mpr fun hmem => (h _ hmem).1 rfl

theorem Quiet.restores_eq (h : Quiet log) : log.restores = 0 :=
  List.countP_eq_zero.mpr fun entry hentry => by simpa using (h entry hentry).2.1

/-- A balanced log in which no transform has failed. -/
structure Settled (log : CanvasLog) : Prop extends Balanced log where
  transformed : ∀ t, (.transform t, false) ∉ log

theorem Settled.append (h : Settled log) (h' : Settled log') : Settled (log ++ log') where
  toBalanced := h.toBalanced.append h'.toBalanced
  transformed t ht := (List.mem_append.mp ht).elim (h.transformed t) (h'.transformed t)

theorem Quiet.settled (h : Quiet log) : Settled log where
  restores_le front hfront := by
    rw [(h.of_prefix hfront).restores_eq]
    exact Nat.zero_le _
  restores_eq := by rw [h.restores_eq, h.saves_eq]
  transformed t ht := (h _ ht).2.2 t rfl

/-- A save that fails need not be restored. -/
theorem settled_save : Settled [(.save, false)] where
  restores_le front hfront := by
    rcases List.prefix_cons_iff.mp hfront with rfl | ⟨front', rfl, hfront'⟩
    · exact Nat.le_refl _
    · rw [List.prefix_nil.mp hfront']
      decide
  restores_eq := by decide
  transformed := by simp

/-- The entries of a shape that is drawn between a save and a restore. -/
theorem Quiet.settled_frame (h : Quiet log) (t : Affine) :
    Settled ([(.save, true), (.transform t, true)] ++ log ++ [(.restore, true)]) where
  restores_le front hfront := by
    rcases List.prefix_concat_iff.mp hfront with rfl | hinside
    · simp [h.restores_eq]
    · have hle := restores_le_of_prefix hinside
      have hnone : restores ([(.save, true), (.transform t, true)] ++ log) = 0 := by simp [h.restores_eq]
      omega
  restores_eq := by simp [h.restores_eq, h.saves_eq]
  transformed t' ht' := by
    have hmem : (.transform t', false) ∈ log := by simpa using ht'
    exact (h _ hmem).2.2 t' rfl

/-- A settled log, and then a save whose transform fails. -/
def Stuck (log : CanvasLog) : Prop :=
  ∃ before t, Settled before ∧ log = before ++ [(.save, true), (.transform t, false)]

theorem Settled.append_stuck (h : Settled log) (h' : Stuck log') : Stuck (log ++ log') := by
  obtain ⟨before, t, hbefore, rfl⟩ := h'
  exact ⟨log ++ before, t, h.append hbefore, (List.append_assoc _ _ _).symm⟩

theorem Stuck.saves_eq (h : Stuck log) : log.saves = log.restores + 1 := by
  obtain ⟨before, t, hbefore, rfl⟩ := h
  simp [hbefore.restores_eq]

theorem Stuck.restores_le (h : Stuck log) {front : CanvasLog} (hfront : front <+: log) :
    front.restores ≤ front.saves := by
  obtain ⟨before, t, hbefore, rfl⟩ := h
  rcases List.prefix_or_prefix_of_prefix hfront (List.prefix_append before _) with hf | ⟨front', rfl⟩
  · exact hbefore.restores_le front hf
  · have hle := restores_le_of_prefix ((List.prefix_append_right_inj before).mp hfront)
    have hnone : restores [(.save, true), (.transform t, false)] = 0 := by simp
    have := hbefore.restores_eq
    rw [restores_append, saves_append]
    omega

end CanvasLog

/-! ### What an action logs -/

/-- The host together with a log of the calls made on it and of whether they returned. -/
def Host.logged {κ σ ε : Type} (h : Host κ σ ε) : Host κ (List (κ × Bool) × σ) ε := fun c (log, s) =>
  match h c s with
  | .ok _ s => .ok () (log ++ [(c, true)], s)
  | .error e s => .error e (log ++ [(c, false)], s)

namespace Canvas

open CanvasLog

variable {σ ε : Type} {context : Host CanvasCall σ ε}

/-- The outcome of an action that began with the log `start`: what it has added satisfies `P` if the action
succeeded and `Q` if it failed. -/
inductive Logs (start : CanvasLog) (P Q : CanvasLog → Prop) :
    EStateM.Result ε (LineSettings × CanvasLog × σ) Unit → Prop
  | ok {added : CanvasLog} (settings : LineSettings) (s : σ) :
      P added → Logs start P Q (.ok () (settings, start ++ added, s))
  | error {added : CanvasLog} (e : ε) (settings : LineSettings) (s : σ) :
      Q added → Logs start P Q (.error e (settings, start ++ added, s))

variable {start : CanvasLog} {P P' Q Q' : CanvasLog → Prop}

theorem Logs.imp {o : EStateM.Result ε (LineSettings × CanvasLog × σ) Unit} (h : Logs start P Q o)
    (hP : ∀ log, P log → P' log) (hQ : ∀ log, Q log → Q' log) : Logs start P' Q' o := by
  cases h with
  | ok settings s hadded => exact .ok settings s (hP _ hadded)
  | error e settings s hadded => exact .error e settings s (hQ _ hadded)

/-- One action after another. -/
theorem Logs.bind {x y : EStateM ε (LineSettings × CanvasLog × σ) Unit} {settings : LineSettings} {s : σ}
    (hx : Logs start P Q (x (settings, start, s)))
    (hy : ∀ added settings s, P added → Logs (start ++ added) (fun log => P' (added ++ log))
      (fun log => Q' (added ++ log)) (y (settings, start ++ added, s)))
    (hQ : ∀ log, Q log → Q' log) : Logs start P' Q' ((do x; y) (settings, start, s)) := by
  generalize ho : x (settings, start, s) = o at hx
  cases hx with
  | error e settings₁ s₁ hadded =>
      rw [Host.bind_of_error ho]
      exact .error e settings₁ s₁ (hQ _ hadded)
  | @ok added settings₁ s₁ hadded =>
      rw [Host.bind_of_ok ho]
      have hrest := hy added settings₁ s₁ hadded
      generalize y (settings₁, start ++ added, s₁) = o' at hrest
      cases hrest with
      | ok settings₂ s₂ hadded' =>
          rw [List.append_assoc]
          exact .ok settings₂ s₂ hadded'
      | error e settings₂ s₂ hadded' =>
          rw [List.append_assoc]
          exact .error e settings₂ s₂ hadded'

/-! ### Calls -/

/-- A single call on the context adds its own entry. -/
theorem logs_onContext (c : CanvasCall) (settings : LineSettings) (s : σ) :
    Logs start (· = [(c, true)]) (· = [(c, false)])
      (onContext context.logged [c] (settings, start, s)) := by
  simp only [onContext, Host.perform, Host.logged, bind, EStateM.bind, pure, EStateM.pure]
  cases context c s with
  | ok u s₁ => exact .ok settings s₁ rfl
  | error e s₁ => exact .error e settings s₁ rfl

theorem logs_drawing {c : Call} (hc : c.isDrawing) (settings : LineSettings) (s : σ) :
    Logs start Quiet Quiet (host context.logged c (settings, start, s)) := by
  have hquiet {d : CanvasCall} {returned : Bool} (hsave : d ≠ .save) (hrestore : d ≠ .restore)
      (htransform : ∀ t, d ≠ .transform t) (log : CanvasLog) (hlog : log = [(d, returned)]) : Quiet log := by
    rw [hlog]
    intro entry hentry
    rw [List.mem_singleton.mp hentry]
    exact ⟨hsave, hrestore, htransform⟩
  cases c with
  | pushTransform t => cases hc
  | popTransform => cases hc
  | _ => exact (logs_onContext _ _ s).imp (hquiet (by simp) (by simp) (by simp)) (hquiet (by simp) (by simp) (by simp))

theorem logs_perform {calls : List Call} (h : ∀ c ∈ calls, c.isDrawing) (settings : LineSettings) (s : σ) :
    Logs start Quiet Quiet ((host context.logged).perform calls (settings, start, s)) := by
  induction calls generalizing start settings s with
  | nil =>
      have hnil : Logs start Quiet Quiet (ε := ε) (.ok () (settings, start ++ [], s)) := .ok settings s quiet_nil
      rwa [List.append_nil] at hnil
  | cons c calls ih =>
      unfold Host.perform
      refine (logs_drawing (h c (by simp)) settings s).bind ?_ (fun _ => id)
      intro added settings₁ s₁ hadded
      exact (ih (fun d hd => h d (by simp [hd])) settings₁ s₁).imp (fun _ => hadded.append) (fun _ => hadded.append)

/-- A push saves and transforms, or fails to do the one or the other. -/
theorem logs_push (t : Affine) (settings : LineSettings) (s : σ) :
    Logs start (· = [(.save, true), (.transform t, true)])
      (fun log => log = [(.save, false)] ∨ log = [(.save, true), (.transform t, false)])
      (host context.logged (.pushTransform t) (settings, start, s)) := by
  simp only [host, onContext, Host.perform, Host.logged, bind, EStateM.bind, pure, EStateM.pure]
  cases context .save s with
  | error e s₁ => exact .error e settings s₁ (Or.inl rfl)
  | ok u s₁ =>
      dsimp only
      cases context (.transform t) s₁ with
      | error e s₂ =>
          dsimp only
          rw [List.append_assoc]
          exact .error e settings s₂ (Or.inr rfl)
      | ok u s₂ =>
          dsimp only
          rw [List.append_assoc]
          exact .ok settings s₂ rfl

/-- The calls of a shape are ended by a restore, whatever came of them. -/
theorem logs_ensuring (hrestore : ∀ s, ∃ s', context .restore s = .ok () s') {calls : List Call}
    (h : ∀ c ∈ calls, c.isDrawing) (settings : LineSettings) (s : σ) :
    Logs start (fun log => ∃ log', Quiet log' ∧ log = log' ++ [(.restore, true)])
      (fun log => ∃ log', Quiet log' ∧ log = log' ++ [(.restore, true)])
      ((host context.logged).ensuring ((host context.logged).perform calls) .popTransform (settings, start, s)) := by
  have hpop (settings : LineSettings) (log : CanvasLog) (s : σ) :
      ∃ s', host context.logged .popTransform (settings, log, s) = .ok () (settings, log ++ [(.restore, true)], s') := by
    obtain ⟨s', hs'⟩ := hrestore s
    refine ⟨s', ?_⟩
    simp only [host, onContext, Host.perform, Host.logged, bind, EStateM.bind, hs', pure, EStateM.pure]
  have hbody : Logs start Quiet Quiet ((host context.logged).perform calls (settings, start, s)) :=
    logs_perform h settings s
  generalize ho : (host context.logged).perform calls (settings, start, s) = o at hbody
  cases hbody with
  | @ok added settings₁ s₁ hadded =>
      obtain ⟨s₂, hs₂⟩ := hpop settings₁ (start ++ added) s₁
      rw [Host.ensuring_of_ok ho, hs₂, List.append_assoc]
      exact .ok settings₁ s₂ ⟨added, hadded, rfl⟩
  | @error added e settings₁ s₁ hadded =>
      obtain ⟨s₂, hs₂⟩ := hpop settings₁ (start ++ added) s₁
      rw [Host.ensuring_of_error ho hs₂, List.append_assoc]
      exact .error e settings₁ s₂ ⟨added, hadded, rfl⟩

/-! ### Shapes -/

/-- A shape that is drawn leaves a settled log; one that fails leaves a settled or a stuck one. -/
theorem logs_replay (hrestore : ∀ s, ∃ s', context .restore s = .ok () s') (shape : Shape)
    (settings : LineSettings) (s : σ) :
    Logs start Settled (fun log => Settled log ∨ Stuck log)
      (shape.replay (host context.logged) (settings, start, s)) := by
  by_cases hid : shape.transform.isIdentity
  · rw [Shape.replay_of_isIdentity hid]
    exact (logs_perform (fun _ => Shape.isDrawing_of_mem_calls) settings s).imp
      (fun _ => Quiet.settled) (fun _ h => .inl h.settled)
  · rw [Shape.replay_eq, if_neg hid]
    refine (logs_push shape.transform settings s).bind ?_ ?_
    · rintro added settings₁ s₁ rfl
      have hframed (log : CanvasLog) (hlog : ∃ log', Quiet log' ∧ log = log' ++ [(.restore, true)]) :
          Settled ([(.save, true), (.transform shape.transform, true)] ++ log) := by
        obtain ⟨log', hquiet, rfl⟩ := hlog
        rw [← List.append_assoc]
        exact hquiet.settled_frame shape.transform
      exact (logs_ensuring hrestore (fun _ => Shape.isDrawing_of_mem_calls) settings₁ s₁).imp hframed
        (fun log hlog => .inl (hframed log hlog))
    · rintro log (rfl | rfl)
      · exact .inl settled_save
      · exact .inr ⟨[], shape.transform, quiet_nil.settled, rfl⟩

theorem logs_replayAll (hrestore : ∀ s, ∃ s', context .restore s = .ok () s') (shapes : List Shape)
    (settings : LineSettings) (s : σ) :
    Logs start Settled (fun log => Settled log ∨ Stuck log)
      (Shape.replayAll (host context.logged) shapes (settings, start, s)) := by
  induction shapes generalizing start settings s with
  | nil =>
      have hnil : Logs start Settled (fun log => Settled log ∨ Stuck log) (ε := ε) (.ok () (settings, start ++ [], s)) :=
        .ok settings s quiet_nil.settled
      rwa [List.append_nil] at hnil
  | cons shape shapes ih =>
      unfold Shape.replayAll
      refine (logs_replay hrestore shape settings s).bind ?_ (fun _ => id)
      intro added settings₁ s₁ hadded
      exact (ih settings₁ s₁).imp (fun _ => hadded.append) (fun _ => Or.imp hadded.append hadded.append_stuck)

end Canvas

/-! ### Logging is harmless -/

namespace Host

variable {κ σ τ ε : Type}

/-- An outcome with its state seen through `view`. -/
def seen (view : σ → τ) : EStateM.Result ε σ Unit → EStateM.Result ε τ Unit
  | .ok _ s => .ok () (view s)
  | .error e s => .error e (view s)

/-- Every call on `h` is, seen through `view`, the call on `h'`. -/
def Shows (view : σ → τ) (h : Host κ σ ε) (h' : Host κ τ ε) : Prop :=
  ∀ c s, seen view (h c s) = h' c (view s)

variable {view : σ → τ} {h : Host κ σ ε} {h' : Host κ τ ε}

theorem seen_bind {x y : EStateM ε σ Unit} {x' y' : EStateM ε τ Unit}
    (hx : ∀ s, seen view (x s) = x' (view s)) (hy : ∀ s, seen view (y s) = y' (view s)) (s : σ) :
    seen view ((do x; y) s) = (do x'; y') (view s) := by
  cases ho : x s with
  | ok u s₁ =>
      have hx' : x' (view s) = .ok () (view s₁) := by rw [← hx, ho]; rfl
      rw [bind_of_ok ho, bind_of_ok hx', hy]
  | error e s₁ =>
      have hx' : x' (view s) = .error e (view s₁) := by rw [← hx, ho]; rfl
      rw [bind_of_error ho, bind_of_error hx']
      rfl

theorem Shows.perform (hh : Shows view h h') (cs : List κ) (s : σ) :
    seen view (h.perform cs s) = h'.perform cs (view s) := by
  induction cs generalizing s with
  | nil => rfl
  | cons c cs ih => exact seen_bind (hh c) ih s

theorem Shows.ensuring (hh : Shows view h h') {body : EStateM ε σ Unit} {body' : EStateM ε τ Unit}
    (hbody : ∀ s, seen view (body s) = body' (view s)) (last : κ) (s : σ) :
    seen view (h.ensuring body last s) = h'.ensuring body' last (view s) := by
  unfold Host.ensuring
  rw [← hbody]
  cases body s with
  | ok u s₁ => exact hh last s₁
  | error e s₁ =>
      simp only [seen, ← hh last s₁]
      cases h last s₁ <;> rfl

end Host

section

variable {σ τ ε : Type} {view : σ → τ} {h : Host Call σ ε} {h' : Host Call τ ε}

theorem Shape.seen_replay (hh : Host.Shows view h h') (shape : Shape) (s : σ) :
    Host.seen view (shape.replay h s) = shape.replay h' (view s) := by
  rw [replay_eq, replay_eq]
  split
  · exact hh.perform shape.calls s
  · exact Host.seen_bind (hh _) (hh.ensuring (hh.perform shape.calls) .popTransform) s

theorem Shape.seen_replayAll (hh : Host.Shows view h h') (shapes : List Shape) (s : σ) :
    Host.seen view (replayAll h shapes s) = replayAll h' shapes (view s) := by
  induction shapes generalizing s with
  | nil => rfl
  | cons shape shapes ih => exact Host.seen_bind (seen_replay hh shape) ih s

end

namespace Canvas

variable {σ ε : Type}

/-- The state without the log. -/
def unlogged : LineSettings × CanvasLog × σ → LineSettings × σ := fun (settings, _, s) => (settings, s)

def logOf : EStateM.Result ε (LineSettings × CanvasLog × σ) Unit → CanvasLog
  | .ok _ (_, log, _) => log
  | .error _ (_, log, _) => log

theorem Logs.logOf_cases {P Q : CanvasLog → Prop} {o : EStateM.Result ε (LineSettings × CanvasLog × σ) Unit}
    (h : Logs [] P Q o) : P (logOf o) ∨ Q (logOf o) ∧ ∃ e x, o = .error e x := by
  cases h with
  | ok settings s hadded => exact .inl hadded
  | error e settings s hadded => exact .inr ⟨hadded, e, _, rfl⟩

theorem shows_host (context : Host CanvasCall σ ε) : Host.Shows unlogged (host context.logged) (host context) := by
  have hcontext : Host.Shows Prod.snd context.logged context := by
    rintro c ⟨log, s⟩
    simp only [Host.logged]
    cases context c s <;> rfl
  rintro c ⟨settings, log, s⟩
  rw [host_eq]
  show _ = host context c (settings, s)
  rw [host_eq]
  have hcalls := hcontext.perform (c.onCanvas (settings.after [c])) (log, s)
  unfold onContext
  dsimp only
  rw [← hcalls]
  cases context.logged.perform (c.onCanvas (settings.after [c])) (log, s) <;> rfl

end Canvas

namespace Picture

open CanvasLog

/-- **Saves are restored unless a transform fails.**  Let a context fail on any calls but restores, and log
the calls of a picture.  At no time are there more restores than saves that returned.  In the end there
are as many, whether or not the picture was drawn to its end, unless a transform has failed; that is then the
last call, and the save right before it is not restored. -/
theorem replay_logged {σ ε : Type} (p : Picture) (context : Host CanvasCall σ ε)
    (hrestore : ∀ s, ∃ s', context .restore s = .ok () s') (settings : LineSettings) (s : σ) :
    let o := p.replay (Canvas.host context.logged) (settings, [], s)
    let log := Canvas.logOf o
    p.replay (Canvas.host context) (settings, s) = Host.seen Canvas.unlogged o ∧
    (∀ front, front <+: log → restores front ≤ saves front) ∧
    (log.restores = log.saves ∧ (∀ t, (.transform t, false) ∉ log) ∨
      log.saves = log.restores + 1 ∧ (∃ t, [(.save, true), (.transform t, false)] <:+ log) ∧
        ∃ e x, o = .error e x) := by
  intro o log
  have hseen : Host.seen Canvas.unlogged o = p.replay (Canvas.host context) (settings, s) :=
    Shape.seen_replayAll (Canvas.shows_host context) p.shapes (settings, [], s)
  refine ⟨hseen.symm, ?_⟩
  have hsettled (h : Settled log) : (∀ front, front <+: log → restores front ≤ saves front) ∧
      (log.restores = log.saves ∧ (∀ t, (.transform t, false) ∉ log) ∨
        log.saves = log.restores + 1 ∧ (∃ t, [(.save, true), (.transform t, false)] <:+ log) ∧
          ∃ e x, o = .error e x) :=
    ⟨h.restores_le, .inl ⟨h.restores_eq, h.transformed⟩⟩
  rcases (Canvas.logs_replayAll hrestore p.shapes settings s).logOf_cases with h | ⟨h | h, herror⟩
  · exact hsettled h
  · exact hsettled h
  · refine ⟨fun front => h.restores_le, .inr ⟨h.saves_eq, ?_, herror⟩⟩
    obtain ⟨before, t, -, hlog⟩ := h
    exact ⟨t, before, hlog.symm⟩

/-- A recorder restores unless it is told to refuse that. -/
theorem restore_of_not_refused {refused : List Refusal} (h : ∀ r ∈ refused, r.name ≠ lit "restore")
    (calls : Array CanvasCall) : ∃ calls', Recorder.host CanvasCall.name refused .restore calls = .ok () calls' :=
  ⟨_, if_neg fun hmem => h _ hmem rfl⟩

/-- A line inside a transform fails; the save is restored. -/
theorem replay_logged_failing_line :
    let context := Recorder.host CanvasCall.name [⟨lit "lineTo", 0⟩]
    let log := Canvas.logOf (sampleScene.replay (Canvas.host context.logged) (.initial, [], #[]))
    (∀ s, ∃ s', context .restore s = .ok () s') ∧ log.saves = 1 ∧ log.restores = log.saves := by
  intro context log
  have hrestore : ∀ s, ∃ s', context .restore s = .ok () s' := restore_of_not_refused (by decide)
  have hlog : log = [(.beginPath, true), (.moveTo ⟨1, 2⟩, true), (.fill (lit "rgba(0, 0, 7, 0)"), true),
      (.save, true), (.transform ⟨2, 0, 0, 2, 0, 0⟩, true), (.beginPath, true), (.lineTo ⟨3, 4⟩, false),
      (.restore, true)] := by decide +kernel
  refine ⟨hrestore, by rw [hlog]; decide +kernel, ?_⟩
  obtain ⟨-, -, ⟨heq, -⟩ | ⟨-, ⟨t, before, hlast⟩, -⟩⟩ := replay_logged sampleScene context hrestore .initial #[]
  · exact heq
  · have hend := congrArg List.getLast? (hlast.trans hlog)
    simp at hend

/-- A transform fails, and the save before it is not restored. -/
theorem replay_logged_failing_transform :
    let context := Recorder.host CanvasCall.name [⟨lit "transform", 0⟩]
    let log := Canvas.logOf (sampleScene.replay (Canvas.host context.logged) (.initial, [], #[]))
    (∀ s, ∃ s', context .restore s = .ok () s') ∧ log.saves = 1 ∧ log.restores = 0 := by
  intro context log
  have hlog : log = [(.beginPath, true), (.moveTo ⟨1, 2⟩, true), (.fill (lit "rgba(0, 0, 7, 0)"), true),
      (.save, true), (.transform ⟨2, 0, 0, 2, 0, 0⟩, false)] := by decide +kernel
  rw [hlog]
  exact ⟨restore_of_not_refused (by decide), by decide +kernel, by decide +kernel⟩

end Picture

end Pictogram
