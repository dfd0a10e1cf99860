import Pictogram.Proofs.Script.Reading

/-! # Drawing by script

The statements of a picture, executed on a host, do what replaying the picture does
(`execAll_statements`): the same calls in the same order, with the same outcome, wherever the host
fails.  With the reader of scripts this makes a written module draw what its pictures draw
(`read?_write`), except that both zeros are written as `0`. -/

namespace Pictogram

variable {σ ε : Type}

/-! ### Execution -/

namespace Statement

def exec (h : Host Call σ ε) : Statement → EStateM ε σ Unit
  | call c => h c
  | guarded body last => h.ensuring (h.perform body) last

/-- Executes statements in order, up to the first failure. -/
def execAll (h : Host Call σ ε) : List Statement → EStateM ε σ Unit
  | [] => pure ()
  | s :: ss => do
    s.exec h
    execAll h ss

theorem execAll_append (h : Host Call σ ε) (ss ss' : List Statement) :
    execAll h (ss ++ ss') = (do execAll h ss; execAll h ss') := by
  induction ss with
  | nil => simp [execAll]
  | cons s ss ih => simp [execAll, ih]

theorem execAll_calls (h : Host Call σ ε) (cs : List Call) : execAll h (cs.map call) = h.perform cs := by
  induction cs with
  | nil => rfl
  | cons c cs ih =>
      rw [List.map_cons, execAll, ih]
      rfl

theorem execAll_shape (h : Host Call σ ε) (s : Shape) : execAll h s.statements = s.replay h := by
  rw [Shape.statements, Shape.replay_eq]
  split
  · exact execAll_calls h s.calls
  · simp [execAll, exec]

/-- The statements of a picture do what replaying it does. -/
theorem execAll_statements (h : Host Call σ ε) (p : Picture) :
    execAll h (Script.statements p) = p.replay h := by
  unfold Script.statements Picture.replay
  induction p.shapes with
  | nil => rfl
  | cons s ss ih => rw [List.flatMap_cons, execAll_append, execAll_shape, ih, Shape.replayAll]

theorem perform_map (h : Host Call σ ε) (f : Float → Float) (cs : List Call) :
    h.perform (cs.map (Call.map f)) = Host.perform (fun c => h (c.map f)) cs := by
  induction cs with
  | nil => rfl
  | cons c cs ih => rw [List.map_cons, Host.perform, ih, Host.perform]

/-- Statements with their numbers replaced do on a host what the statements do on one that gets the
replaced numbers. -/
theorem execAll_map (h : Host Call σ ε) (f : Float → Float) (ss : List Statement) :
    execAll h (ss.map (Statement.map f)) = execAll (fun c => h (c.map f)) ss := by
  induction ss with
  | nil => rfl
  | cons s ss ih =>
      rw [List.map_cons, execAll, ih, execAll]
      cases s with
      | call c => rfl
      | guarded body last => rw [Statement.map, exec, exec, perform_map]; rfl

end Statement

/-! ### Names -/

namespace Script

theorem nameError?_eq_none_iff {seen names : List Text} :
    nameError? seen names = none ↔
      (∀ n ∈ names, ImageName.isValid n) ∧ names.Nodup ∧ ∀ n ∈ names, n ∉ seen := by
  induction names generalizing seen with
  | nil =>
      refine ⟨fun _ => ?_, fun _ => rfl⟩
      simp
  | cons n names ih =>
      rw [List.nodup_cons, List.forall_mem_cons, List.forall_mem_cons]
      show (if ImageName.isValid n = false then some (.invalid n)
        else if n ∈ seen then some (.duplicate n) else nameError? (n :: seen) names) = none ↔ _
      by_cases hvalid : ImageName.isValid n
      · by_cases hseen : n ∈ seen
        · simp [hvalid, hseen]
        · rw [if_neg (by simp [hvalid]), if_neg hseen, ih]
          constructor
          · rintro ⟨hall, hnodup, hfresh⟩
            refine ⟨⟨hvalid, hall⟩, ⟨fun hn => hfresh n hn (by simp), hnodup⟩, hseen, fun m hm hs => ?_⟩
            exact hfresh m hm (List.mem_cons_of_mem n hs)
          · rintro ⟨⟨-, hall⟩, ⟨hn, hnodup⟩, -, hfresh⟩
            refine ⟨hall, hnodup, fun m hm hs => ?_⟩
            rcases List.mem_cons.mp hs with rfl | hs
            · exact hn hm
            · exact hfresh m hm hs
      · simp [hvalid]

theorem write_eq (hostModule : Option Text) {images : List Image} (hvalid : ∀ i ∈ images, ImageName.isValid i.name)
    (hdistinct : (images.map Image.name).Nodup) :
    write hostModule images = .ok (ofLines (headerLines (hostModule.getD defaultHostModule) ++
      images.flatMap fun i => [] :: imageLines i)) := by
  have hnone : nameError? [] (images.map Image.name) = none :=
    nameError?_eq_none_iff.mpr ⟨List.forall_mem_map.mpr hvalid, hdistinct, by simp⟩
  rw [write, hnone]

/-! ### Written modules -/

/-- The number that the text of `x` stands for: both zeros are written as `0`. -/
def positiveZero (x : Float) : Float := if x == 0 then 0 else x

/-- **A written module draws what its pictures draw.**  Reading it gives back the host module, the names
and the view boxes; and the statements of each image do on any host what replaying its picture does,
failures included. -/
theorem read?_write {readNumber : Text → Option Float} (hostModule : Option Text) {images : List Image}
    (hvalid : ∀ i ∈ images, ImageName.isValid i.name) (hdistinct : (images.map Image.name).Nodup)
    (hnumbers : ∀ i ∈ images, ∀ x ∈ numbers i, readNumber (number x) = some (positiveZero x)) :
    ∃ text m, write hostModule images = .ok text ∧ read? readNumber text = some m ∧
      m.hostModule = hostModule.getD defaultHostModule ∧
      m.images.map ImageScript.name = images.map Image.name ∧
      m.images.map ImageScript.viewBox = images.map (fun i => i.picture.viewBox.map (ViewBox.map positiveZero)) ∧
      ∀ p ∈ images.zip m.images, ∀ (σ ε : Type) (h : Host Call σ ε),
        Statement.execAll h p.2.body = p.1.picture.replay fun c => h (c.map positiveZero) := by
  refine ⟨_, _, write_eq hostModule hvalid hdistinct, read?_module _ hvalid hnumbers, rfl, ?_, ?_, ?_⟩
  · rw [List.map_map]
    rfl
  · rw [List.map_map]
    rfl
  · have hzip : images.zip (images.map (ImageScript.ofImage positiveZero)) =
        images.map fun i => (i, ImageScript.ofImage positiveZero i) := by
      simpa using List.zip_map' (f := id) (g := ImageScript.ofImage positiveZero) (l := images)
    rw [hzip, List.forall_mem_map]
    intro i _ σ ε h
    show Statement.execAll h ((statements i.picture).map (Statement.map positiveZero)) = _
    rw [Statement.execAll_map, Statement.execAll_statements]

/-- Shapes with and without a transform, a zero with a sign, and texts that have to be escaped. -/
def sampleImages : List Image :=
  [⟨lit "a1", ⟨some ⟨⟨-0.0, 0⟩, ⟨24, 1.5⟩⟩,
      [⟨.identity, [.moveTo ⟨1, -2.5⟩, .cubeTo ⟨0.1, 0⟩ ⟨1e21, 3⟩ ⟨4, -0.0⟩, .close], .solid ⟨0xFF00AA07⟩, .none,
          ⟨1, [], []⟩⟩,
        ⟨⟨2, 0, 0, 2, -0.0, 1e-7⟩, [.lineTo ⟨5, 6⟩], .none, .solid ⟨3⟩,
          ⟨0.25, [unit '"', unit '\\', unit '\n', 0xD800], lit "\" \x7d)"⟩⟩]⟩⟩,
    ⟨lit "$", ⟨none, []⟩⟩]

def sampleHost : Text := lit "it's \"here\"\n"

theorem read?_write_sampleImages :
    ∃ text m, write (some sampleHost) sampleImages = .ok text ∧ read? Decimal.read? text = some m ∧
      m.hostModule = sampleHost ∧ m.images.map ImageScript.name = [lit "a1", lit "$"] ∧
      m.images.map ImageScript.viewBox = [some ⟨⟨0, 0⟩, ⟨24, 1.5⟩⟩, none] ∧
      ∀ p ∈ sampleImages.zip m.images, ∀ (σ ε : Type) (h : Host Call σ ε),
        Statement.execAll h p.2.body = p.1.picture.replay fun c => h (c.map positiveZero) := by
  have hvalid : ∀ i ∈ sampleImages, ImageName.isValid i.name := by decide
  have hdistinct : (sampleImages.map Image.name).Nodup := by decide
  have hnumbers : ∀ i ∈ sampleImages, ∀ x ∈ numbers i, Decimal.read? (number x) = some (positiveZero x) := by
    decide +kernel
  obtain ⟨text, m, hwrite, hread, hhost, hnames, hboxes, hdraws⟩ :=
    read?_write (some sampleHost) hvalid hdistinct hnumbers
  exact ⟨text, m, hwrite, hread, hhost, hnames, hboxes.trans (by decide +kernel), hdraws⟩

end Script
end Pictogram
