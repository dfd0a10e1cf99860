import Pictogram.Proofs.Script.Piece

/-! # Reading a script

A reader of image modules, from lexemes to the module: its host module, and for each image the name, the
view box and the statements that draw it.  How numbers are read is a parameter.

`Reads p a ls` says that `p` reads `a` from the lexemes `ls`, whatever follows them.  What is written is
read back, except that a number `x` comes back as `f x`, which is how its text is read (`Legible`). -/

namespace Pictogram
namespace Script

/-- A reader of lexemes: what it reads, and the lexemes that are left. -/
abbrev Reading (α : Type) := StateT (List Lexeme) Option α

/-- An image constant as it is read. -/
structure ImageScript where
  name : Text
  viewBox : Option ViewBox
  body : List Statement

structure ModuleScript where
  hostModule : Text
  images : List ImageScript

/-- The methods of a host. -/
inductive Method where
  | pushTransform
  | popTransform
  | beginPath
  | moveTo
  | lineTo
  | cubicTo
  | closePath
  | fill
  | stroke
deriving DecidableEq, Repr

namespace Method

def all : List Method :=
  [pushTransform, popTransform, beginPath, moveTo, lineTo, cubicTo, closePath, fill, stroke]

/-- A method as a member of the host. -/
def word : Method → Text
  | pushTransform => lit "host.pushTransform"
  | popTransform => lit "host.popTransform"
  | beginPath => lit "host.beginPath"
  | moveTo => lit "host.moveTo"
  | lineTo => lit "host.lineTo"
  | cubicTo => lit "host.cubicTo"
  | closePath => lit "host.closePath"
  | fill => lit "host.fill"
  | stroke => lit "host.stroke"

def ofWord? (w : Text) : Option Method := all.find? fun m => m.word = w

theorem ofWord?_word (m : Method) : ofWord? m.word = some m := by
  cases m <;> decide

def ofCall : Call → Method
  | .pushTransform _ => pushTransform
  | .popTransform => popTransform
  | .beginPath => beginPath
  | .moveTo _ => moveTo
  | .lineTo _ => lineTo
  | .cubicTo _ _ _ => cubicTo
  | .closePath => closePath
  | .fill _ => fill
  | .stroke _ _ => stroke

theorem word_ofCall (c : Call) : (ofCall c).word = Piece.methodWord c := by
  cases c <;> simp only [ofCall, word, Piece.methodWord, method] <;> decide

end Method

namespace Reading

variable {α β : Type}

def expect (l : Lexeme) : Reading Unit
  | [] => none
  | l' :: ls => if l' = l then some ((), ls) else none

def mark (c : Char) : Reading Unit := expect (.mark (unit c))

def keyword (s : String) : Reading Unit := expect (.word (lit s))

def word : Reading Text
  | .word w :: ls => some (w, ls)
  | _ => none

def literal : Reading Text
  | .literal t :: ls => some (t, ls)
  | _ => none

def field (key : String) (value : Reading α) : Reading α := do
  keyword key
  mark ':'
  value

def enclosed (first last : Char) (p : Reading α) : Reading α := do
  mark first
  let a ← p
  mark last
  return a

def hostTypes : Reading Unit := do
  keyword "CompiledImage"
  mark ','
  keyword "DrawHost"

/-- The line that names the host module. -/
def importLine : Reading Text := do
  keyword "import"
  keyword "type"
  enclosed '\x7b' '\x7d' hostTypes
  keyword "from"
  literal

/-- Reads as often as it can; what takes no lexeme ends the list. -/
def many (p : Reading α) : Reading (List α) := fun ls =>
  match p ls with
  | none => some ([], ls)
  | some (a, rest) =>
      if rest.length < ls.length then (many p rest).map fun (as, rest) => (a :: as, rest) else some ([], ls)
termination_by ls => ls.length

/-! ### Values, calls and statements -/

section

variable (readNumber : Text → Option Float)

def number : Reading Float := do readNumber (← word)

def point : Reading Point := enclosed '\x7b' '\x7d' do
  let x ← field "x" (number readNumber)
  mark ','
  let y ← field "y" (number readNumber)
  return ⟨x, y⟩

def affine : Reading Affine := enclosed '\x7b' '\x7d' do
  let a ← field "a" (number readNumber)
  mark ','
  let b ← field "b" (number readNumber)
  mark ','
  let c ← field "c" (number readNumber)
  mark ','
  let d ← field "d" (number readNumber)
  mark ','
  let e ← field "e" (number readNumber)
  mark ','
  let f ← field "f" (number readNumber)
  return ⟨a, b, c, d, e, f⟩

/-- The colour that a hexadecimal number of at most 32 bits stands for. -/
def color : Reading Color := do
  let digits ← Text.stripFront? (lit "0x") (← word)
  let n ← hexNumber? digits
  if n < 0x100000000 then return ⟨UInt32.ofNat n⟩ else failure

def lineStyle : Reading LineStyle := enclosed '\x7b' '\x7d' do
  let width ← field "width" (number readNumber)
  mark ','
  let cap ← field "linecap" literal
  mark ','
  let join ← field "linejoin" literal
  return ⟨width, cap, join⟩

def viewBox : Reading (Option ViewBox) :=
  (do keyword "null"; return none) <|> enclosed '\x7b' '\x7d' do
    let min ← field "min" (point readNumber)
    mark ','
    let max ← field "max" (point readNumber)
    return some ⟨min, max⟩

/-- The call of a method, from its arguments. -/
def arguments : Method → Reading Call
  | .pushTransform => do return .pushTransform (← affine readNumber)
  | .popTransform => return .popTransform
  | .beginPath => return .beginPath
  | .moveTo => do return .moveTo (← point readNumber)
  | .lineTo => do return .lineTo (← point readNumber)
  | .cubicTo => do
      let p ← point readNumber
      mark ','
      let q ← point readNumber
      mark ','
      return .cubicTo p q (← point readNumber)
  | .closePath => return .closePath
  | .fill => do return .fill (← color)
  | .stroke => do
      let c ← color
      mark ','
      return .stroke c (← lineStyle readNumber)

def call : Reading Call := do
  let m ← Method.ofWord? (← word)
  enclosed '(' ')' (arguments readNumber m)

def guarded : Reading Statement := do
  keyword "try"
  let body ← enclosed '\x7b' '\x7d' (many (call readNumber))
  keyword "finally"
  let last ← enclosed '\x7b' '\x7d' (call readNumber)
  return .guarded body last

def statement : Reading Statement := guarded readNumber <|> do return .call (← call readNumber)

def imageConstant : Reading ImageScript := do
  keyword "export"
  keyword "const"
  let name ← word
  mark ':'
  keyword "CompiledImage"
  mark '='
  enclosed '\x7b' '\x7d' do
    let box ← field "viewBox" (viewBox readNumber)
    mark ','
    keyword "draw"
    enclosed '(' ')' (field "host" (keyword "DrawHost"))
    mark ':'
    keyword "void"
    let body ← enclosed '\x7b' '\x7d' (many (statement readNumber))
    mark ','
    return ⟨name, box, body⟩

def imageModule : Reading ModuleScript := do
  let hostModule ← importLine
  let images ← many (imageConstant readNumber)
  return ⟨hostModule, images⟩

end

end Reading

/-- Reads a whole module. -/
def read? (readNumber : Text → Option Float) (t : Text) : Option ModuleScript := do
  let ls ← lexemes? t
  match Reading.imageModule readNumber ls with
  | some (m, []) => some m
  | _ => none

/-! ### What readers read -/

/-- The reader reads `a` from the lexemes `ls`, whatever follows them. -/
def Reads {α : Type} (p : Reading α) (a : α) (ls : List Lexeme) : Prop := ∀ rest, p (ls ++ rest) = some (a, rest)

namespace Reads

open Reading

variable {α β : Type} {p : Reading α} {a : α} {ls : List Lexeme}

theorem pure (a : α) : Reads (Pure.pure a) a [] := fun _ => rfl

theorem bind {k : α → Reading β} {b : β} {ls' : List Lexeme} (h : Reads p a ls) (h' : Reads (k a) b ls') :
    Reads (p >>= k) b (ls ++ ls') := by
  intro rest
  have hp : p (ls ++ (ls' ++ rest)) = some (a, ls' ++ rest) := h (ls' ++ rest)
  rw [List.append_assoc]
  simp only [Bind.bind, StateT.bind, hp]
  exact h' rest

theorem lift {o : Option α} (h : o = some a) : Reads (liftM o : Reading α) a [] := by
  subst h
  exact fun _ => rfl

theorem expect (l : Lexeme) : Reads (Reading.expect l) () [l] := fun _ => if_pos rfl

theorem mark (c : Char) : Reads (Reading.mark c) () [.mark (unit c)] := expect _

theorem keyword (s : String) : Reads (Reading.keyword s) () [.word (lit s)] := expect _

theorem expect_of_ne {l l' : Lexeme} (h : l' ≠ l) (ls : List Lexeme) : Reading.expect l (l' :: ls) = none :=
  if_neg h

theorem word (w : Text) : Reads Reading.word w [.word w] := fun _ => rfl

theorem literal (t : Text) : Reads Reading.literal t [.literal t] := fun _ => rfl

theorem field (key : String) (h : Reads p a ls) :
    Reads (Reading.field key p) a (.word (lit key) :: .mark (unit ':') :: ls) :=
  (keyword key).bind ((mark ':').bind h)

theorem enclosed (first last : Char) (h : Reads p a ls) :
    Reads (Reading.enclosed first last p) a (.mark (unit first) :: (ls ++ [.mark (unit last)])) :=
  (mark first).bind (h.bind ((mark last).bind (pure a)))

/-- The first of two readers reads. -/
theorem orElse_left {q : Reading α} (h : Reads p a ls) : Reads (p <|> q) a ls := by
  intro rest
  show (p (ls ++ rest)).orElse _ = _
  rw [h rest]
  rfl

/-- The second of two readers reads where the first does not. -/
theorem orElse_right {q : Reading α} (hp : ∀ rest, p (ls ++ rest) = none) (h : Reads q a ls) :
    Reads (p <|> q) a ls := by
  intro rest
  show (p (ls ++ rest)).orElse _ = _
  rw [hp rest]
  exact h rest

/-- A list is read up to where its reader fails. -/
theorem many_append {p : Reading β} {f : α → List Lexeme} {g : α → β} {as : List α}
    (h : ∀ a ∈ as, Reads p (g a) (f a)) (hf : ∀ a ∈ as, f a ≠ []) {rest : List Lexeme} (hrest : p rest = none) :
    many p (as.flatMap f ++ rest) = some (as.map g, rest) := by
  induction as with
  | nil =>
      rw [List.flatMap_nil, List.nil_append, many, hrest]
      rfl
  | cons a as ih =>
      have hfirst := h a (by simp) (as.flatMap f ++ rest)
      have htail := ih (fun b hb => h b (List.mem_cons_of_mem a hb)) (fun b hb => hf b (List.mem_cons_of_mem a hb))
      have hlt : (as.flatMap f ++ rest).length < (f a ++ (as.flatMap f ++ rest)).length := by
        have := List.length_pos_iff.mpr (hf a (by simp))
        simp only [List.length_append]
        omega
      rw [List.flatMap_cons, List.append_assoc, many, hfirst]
      simp only [if_pos hlt, htail, Option.map_some, List.map_cons]

/-- A list between marks is read whole if its reader fails at the last mark. -/
theorem enclosed_many {p : Reading β} {f : α → List Lexeme} {g : α → β} {as : List α} (first last : Char)
    (h : ∀ a ∈ as, Reads p (g a) (f a)) (hf : ∀ a ∈ as, f a ≠ [])
    (hlast : ∀ ls, p (.mark (unit last) :: ls) = none) :
    Reads (Reading.enclosed first last (many p)) (as.map g)
      (.mark (unit first) :: (as.flatMap f ++ [.mark (unit last)])) := by
  intro rest
  have hmany := many_append h hf (hlast rest)
  simp only [Reading.enclosed, Bind.bind, StateT.bind, Reading.mark, Reading.expect, List.cons_append,
    List.append_assoc, List.nil_append, if_true, Option.bind_some, hmany]
  rfl

end Reads
end Script

/-! ### Numbers inside values -/

section

variable (f : Float → Float)

def Point.map (p : Point) : Point := ⟨f p.x, f p.y⟩

def Affine.map (t : Affine) : Affine := ⟨f t.a, f t.b, f t.c, f t.d, f t.e, f t.f⟩

def LineStyle.map (s : LineStyle) : LineStyle := { s with width := f s.width }

def ViewBox.map (b : ViewBox) : ViewBox := ⟨b.min.map f, b.max.map f⟩

def Call.map : Call → Call
  | pushTransform t => pushTransform (t.map f)
  | popTransform => popTransform
  | beginPath => beginPath
  | moveTo p => moveTo (p.map f)
  | lineTo p => lineTo (p.map f)
  | cubicTo p q r => cubicTo (p.map f) (q.map f) (r.map f)
  | closePath => closePath
  | fill c => fill c
  | stroke c line => stroke c (line.map f)

def Statement.map : Statement → Statement
  | call c => call (c.map f)
  | guarded body last => guarded (body.map (Call.map f)) (last.map f)

end

def Point.numbers (p : Point) : List Float := [p.x, p.y]

def Affine.numbers (t : Affine) : List Float := [t.a, t.b, t.c, t.d, t.e, t.f]

def ViewBox.numbers (b : ViewBox) : List Float := b.min.numbers ++ b.max.numbers

def Call.numbers : Call → List Float
  | pushTransform t => t.numbers
  | moveTo p => p.numbers
  | lineTo p => p.numbers
  | cubicTo p q r => p.numbers ++ q.numbers ++ r.numbers
  | stroke _ line => [line.width]
  | _ => []

def Statement.numbers : Statement → List Float
  | call c => c.numbers
  | guarded body last => body.flatMap Call.numbers ++ last.numbers

namespace Script

/-- The text of `x` is read as `f x`. -/
def Legible (readNumber : Text → Option Float) (f : Float → Float) (x : Float) : Prop :=
  readNumber (number x) = some (f x)

instance (readNumber : Text → Option Float) (f : Float → Float) (x : Float) : Decidable (Legible readNumber f x) :=
  inferInstanceAs (Decidable (_ = _))

/-- The numbers that the constant of an image is written with. -/
def numbers (image : Image) : List Float :=
  (image.picture.viewBox.map ViewBox.numbers).getD [] ++ (statements image.picture).flatMap Statement.numbers

def ImageScript.ofImage (f : Float → Float) (image : Image) : ImageScript :=
  ⟨image.name, image.picture.viewBox.map (ViewBox.map f), (statements image.picture).map (Statement.map f)⟩

namespace Reads

variable {readNumber : Text → Option Float} {f : Float → Float}

theorem number {x : Float} (h : Legible readNumber f x) :
    Reads (Reading.number readNumber) (f x) (Piece.number x).lexemes :=
  (word (Script.number x)).bind (lift h)

theorem point {p : Point} (h : ∀ x ∈ p.numbers, Legible readNumber f x) :
    Reads (Reading.point readNumber) (p.map f) (Piece.point p).lexemes := by
  simp only [Point.numbers, List.forall_mem_cons] at h
  obtain ⟨hx, hy, -⟩ := h
  exact enclosed _ _ ((field "x" (number hx)).bind ((mark ',').bind ((field "y" (number hy)).bind (pure _))))

theorem affine {t : Affine} (h : ∀ x ∈ t.numbers, Legible readNumber f x) :
    Reads (Reading.affine readNumber) (t.map f) (Piece.affine t).lexemes := by
  simp only [Affine.numbers, List.forall_mem_cons] at h
  obtain ⟨ha, hb, hc, hd, he, hf, -⟩ := h
  exact enclosed _ _ ((field "a" (number ha)).bind ((mark ',').bind ((field "b" (number hb)).bind ((mark ',').bind
    ((field "c" (number hc)).bind ((mark ',').bind ((field "d" (number hd)).bind ((mark ',').bind
      ((field "e" (number he)).bind ((mark ',').bind ((field "f" (number hf)).bind (pure _))))))))))))

theorem color (c : Color) : Reads Reading.color c (Piece.color c).lexemes := by
  have hfront : Text.stripFront? (lit "0x") (Script.color c) = some (Text.hex 8 c.argb.toNat) :=
    Text.stripFront?_eq_some_iff.mpr rfl
  have hbound : c.argb.toNat < 0x100000000 := c.argb.toNat_lt
  have hvalue := Lexing.hexNumber?_hex (Lexing.fitsHex_color c)
  have hcolor : Reads (if c.argb.toNat < 0x100000000 then return ⟨UInt32.ofNat c.argb.toNat⟩ else failure) c [] := by
    rw [if_pos hbound, UInt32.ofNat_toNat]
    exact pure c
  exact (word (Script.color c)).bind ((lift hfront).bind ((lift hvalue).bind hcolor))

theorem lineStyle {s : LineStyle} (h : Legible readNumber f s.width) :
    Reads (Reading.lineStyle readNumber) (s.map f) (Piece.lineStyle s).lexemes :=
  enclosed _ _ ((field "width" (number h)).bind ((mark ',').bind ((field "linecap" (literal s.cap)).bind ((mark ',').bind
    ((field "linejoin" (literal s.join)).bind (pure _))))))

theorem viewBox {box : Option ViewBox} (h : ∀ b ∈ box, ∀ x ∈ b.numbers, Legible readNumber f x) :
    Reads (Reading.viewBox readNumber) (box.map (ViewBox.map f)) (Piece.viewBox box).lexemes := by
  cases box with
  | none => exact orElse_left ((keyword "null").bind (pure none))
  | some b =>
      have hb := h b rfl
      simp only [ViewBox.numbers, List.forall_mem_append] at hb
      exact orElse_right (fun _ => rfl) (enclosed _ _ ((field "min" (point hb.1)).bind ((mark ',').bind
        ((field "max" (point hb.2)).bind (pure _)))))

theorem arguments {c : Call} (h : ∀ x ∈ c.numbers, Legible readNumber f x) :
    Reads (Reading.arguments readNumber (.ofCall c)) (c.map f) (Piece.listed (Piece.arguments c)).lexemes := by
  cases c with
  | pushTransform t => exact (affine h).bind (pure _)
  | popTransform => exact pure _
  | beginPath => exact pure _
  | moveTo p => exact (point h).bind (pure _)
  | lineTo p => exact (point h).bind (pure _)
  | cubicTo p q r =>
      simp only [Call.numbers, List.forall_mem_append] at h
      obtain ⟨⟨hp, hq⟩, hr⟩ := h
      exact (point hp).bind ((mark ',').bind ((point hq).bind ((mark ',').bind ((point hr).bind (pure _)))))
  | closePath => exact pure _
  | fill c => exact (color c).bind (pure _)
  | stroke c line =>
      have hwidth : Legible readNumber f line.width := h line.width (by simp [Call.numbers])
      exact (color c).bind ((mark ',').bind ((lineStyle hwidth).bind (pure _)))

theorem call {c : Call} (h : ∀ x ∈ c.numbers, Legible readNumber f x) :
    Reads (Reading.call readNumber) (c.map f) (Piece.call c).lexemes := by
  have hmethod : Method.ofWord? (Piece.methodWord c) = some (.ofCall c) := by
    rw [← Method.word_ofCall, Method.ofWord?_word]
  exact (word (Piece.methodWord c)).bind ((lift hmethod).bind (enclosed _ _ (arguments h)))

theorem statementLexemes_guarded (body : List Call) (last : Call) :
    statementLexemes (.guarded body last) = [.word (lit "try")] ++
      (.mark (unit '\x7b') :: ((body.flatMap fun c => (Piece.call c).lexemes) ++ [.mark (unit '\x7d')]) ++
        ([.word (lit "finally")] ++
          (.mark (unit '\x7b') :: ((Piece.call last).lexemes ++ [.mark (unit '\x7d')]) ++ []))) := by
  simp [statementLexemes, Piece.statement, Piece.indent, Piece.after, Piece.ofClosed, List.flatMap_map]

theorem methodWord_ne_try (c : Call) : Piece.methodWord c ≠ lit "try" := by
  cases c <;> simp only [Piece.methodWord, method] <;> decide

theorem statement {s : Statement} (h : ∀ x ∈ s.numbers, Legible readNumber f x) :
    Reads (Reading.statement readNumber) (s.map f) (statementLexemes s) := by
  cases s with
  | call c =>
      refine orElse_right (fun rest => ?_) ((call h).bind (pure _))
      have hne : Lexeme.word (Piece.methodWord c) ≠ .word (lit "try") := by
        simpa using methodWord_ne_try c
      have hfail : Reading.keyword "try" (statementLexemes (.call c) ++ rest) = none := expect_of_ne hne _
      simp only [Reading.guarded, Bind.bind, StateT.bind, hfail, Option.bind_none]
  | guarded body last =>
      simp only [Statement.numbers, List.forall_mem_append, List.mem_flatMap] at h
      obtain ⟨hbody, hlast⟩ := h
      have hcalls := enclosed_many (p := Reading.call readNumber) (g := Call.map f) '\x7b' '\x7d'
        (fun c hc => call (fun x hx => hbody x ⟨c, hc, hx⟩)) (fun c _ => List.cons_ne_nil _ _) (fun _ => rfl)
      rw [statementLexemes_guarded]
      exact orElse_left ((keyword "try").bind (hcalls.bind ((keyword "finally").bind
        ((enclosed _ _ (call hlast)).bind (pure _)))))

theorem statementLexemes_ne_nil (s : Statement) : statementLexemes s ≠ [] := by
  cases s with
  | call c => exact List.cons_ne_nil _ _
  | guarded body last => exact List.cons_ne_nil _ _

theorem imageConstant {image : Image} (h : ∀ x ∈ numbers image, Legible readNumber f x) :
    Reads (Reading.imageConstant readNumber) (.ofImage f image) (imageLexemes image) := by
  simp only [numbers, List.forall_mem_append, List.mem_flatMap] at h
  obtain ⟨hbox, hbody⟩ := h
  have hview : ∀ b ∈ image.picture.viewBox, ∀ x ∈ b.numbers, Legible readNumber f x := by
    intro b hb
    rw [Option.mem_def.mp hb] at hbox
    exact hbox
  have hstatements := enclosed_many (p := Reading.statement readNumber) (g := Statement.map f) '\x7b' '\x7d'
    (fun s hs => statement (fun x hx => hbody x ⟨s, hs, hx⟩)) (fun s _ => statementLexemes_ne_nil s) (fun _ => rfl)
  have hdraw := enclosed '(' ')' (field "host" (keyword "DrawHost"))
  have hconstant : Reads (Reading.imageConstant readNumber) (.ofImage f image) _ :=
    (keyword "export").bind ((keyword "const").bind ((word image.name).bind ((mark ':').bind
      ((keyword "CompiledImage").bind ((mark '=').bind (enclosed _ _ ((field "viewBox" (viewBox hview)).bind
        ((mark ',').bind ((keyword "draw").bind (hdraw.bind ((mark ':').bind ((keyword "void").bind
          (hstatements.bind ((mark ',').bind (pure _)))))))))))))))
  simpa [imageLexemes] using hconstant

theorem hostTypes : Reads Reading.hostTypes ()
    [.word (lit "CompiledImage"), .mark (unit ','), .word (lit "DrawHost")] :=
  (keyword "CompiledImage").bind ((mark ',').bind (keyword "DrawHost"))

theorem importLine (hostModule : Text) : Reads Reading.importLine hostModule (headerLexemes hostModule) := by
  have htypes := enclosed '\x7b' '\x7d' hostTypes
  exact (keyword "import").bind ((keyword "type").bind (htypes.bind ((keyword "from").bind (literal hostModule))))

theorem imageModule (hostModule : Text) {images : List Image}
    (h : ∀ i ∈ images, ∀ x ∈ numbers i, Legible readNumber f x) :
    Reading.imageModule readNumber (headerLexemes hostModule ++ images.flatMap imageLexemes) =
      some (⟨hostModule, images.map (.ofImage f)⟩, []) := by
  have himages := many_append (p := Reading.imageConstant readNumber) (g := ImageScript.ofImage f)
    (fun i hi => imageConstant (h i hi)) (fun i _ => List.cons_ne_nil _ _) (rfl : Reading.imageConstant readNumber [] = none)
  rw [List.append_nil] at himages
  have hheader := importLine hostModule (images.flatMap imageLexemes)
  simp only [Reading.imageModule, Bind.bind, StateT.bind, hheader, Option.bind_some, himages]
  rfl

end Reads

/-- What is written is read back, with `f` applied to its numbers. -/
theorem read?_module {readNumber : Text → Option Float} {f : Float → Float} (hostModule : Text) {images : List Image}
    (hvalid : ∀ i ∈ images, ImageName.isValid i.name)
    (h : ∀ i ∈ images, ∀ x ∈ numbers i, Legible readNumber f x) :
    read? readNumber (ofLines (headerLines hostModule ++ images.flatMap fun i => [] :: imageLines i)) =
      some ⟨hostModule, images.map (.ofImage f)⟩ := by
  simp only [read?, lexemes?_module hostModule hvalid, Bind.bind, Option.bind_some, Reads.imageModule hostModule h]

end Script
end Pictogram
