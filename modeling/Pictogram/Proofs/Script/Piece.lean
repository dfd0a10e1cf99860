import Pictogram.Proofs.Script.Lexeme

/-! # Pieces of a script

A piece is a text together with its lexemes.  The lexemes of a text do not depend on what follows it, as
long as that does not continue a word at its end (`Lexes`), so pieces can be put together: closed texts,
which leave no word open, may stand on either side (`Piece.after`, `Piece.before`), and lists of pieces
are divided by commas (`Piece.listed`).

Everything that a module is made of is a piece, up to its lines (`lines_statement`, `imageLines_eq`), and
the lexemes of a module are those of its lines in order (`lexemes?_module`). -/

namespace Pictogram
namespace Script

open Lexing

/-! ### Texts and their lexemes -/

/-- A text that does not continue a word. -/
def Apart (t : Text) : Prop := ∃ u t', t = u :: t' ∧ isWordUnit u = false

theorem apart_iff {t : Text} : Apart t ↔ t.head?.map isWordUnit = some false := by
  cases t with
  | nil => simp [Apart]
  | cons u t => simp [Apart]

instance (t : Text) : Decidable (Apart t) := decidable_of_iff _ apart_iff.symm

/-- A text with these lexemes after which nothing is open. -/
def Closed (t : Text) (ls : List Lexeme) : Prop := run between t = (ls, between)

instance (t : Text) (ls : List Lexeme) : Decidable (Closed t ls) := inferInstanceAs (Decidable (_ = _))

/-- A text with these lexemes wherever it stands before one that does not continue a word. -/
def Lexes (t : Text) (ls : List Lexeme) : Prop :=
  ∀ rest, Apart rest → run between (t ++ rest) = (ls ++ (run between rest).1, (run between rest).2)

theorem Closed.run_append {t : Text} {ls : List Lexeme} (h : Closed t ls) (rest : Text) :
    run between (t ++ rest) = (ls ++ (run between rest).1, (run between rest).2) := by
  rw [Lexing.run_append, h]

theorem Closed.lexes {t : Text} {ls : List Lexeme} (h : Closed t ls) : Lexes t ls := fun rest _ => h.run_append rest

theorem Closed.append {t t' : Text} {ls ls' : List Lexeme} (h : Closed t ls) (h' : Closed t' ls') :
    Closed (t ++ t') (ls ++ ls') := by
  rw [Closed, h.run_append, h']

theorem Closed.append_lexes {t t' : Text} {ls ls' : List Lexeme} (h : Closed t ls) (h' : Lexes t' ls') :
    Lexes (t ++ t') (ls ++ ls') := by
  intro rest hrest
  rw [List.append_assoc, h.run_append, h' rest hrest, List.append_assoc]

theorem Lexes.append_closed {t t' : Text} {ls ls' : List Lexeme} (h : Lexes t ls) (ha : Apart t')
    (h' : Closed t' ls') : Closed (t ++ t') (ls ++ ls') := by
  rw [Closed, h t' ha, h']

/-! ### Words -/

def IsWord (t : Text) : Prop := t ≠ [] ∧ ∀ u ∈ t, isWordUnit u

theorem isWord_iff {t : Text} : IsWord t ↔ t ≠ [] ∧ t.all isWordUnit := by
  rw [IsWord, List.all_eq_true]

instance (t : Text) : Decidable (IsWord t) := decidable_of_iff _ isWord_iff.symm

theorem start_of_isWordUnit {u : CodeUnit} (h : isWordUnit u) : start u = ([], word [u]) := by
  have hne {v : CodeUnit} (hv : isWordUnit v = false) : u ≠ v := by
    rintro rfl
    rw [hv] at h
    cases h
  have hblank : isBlank u = false := by
    simp [isBlank, hne (v := unit ' ') (by decide), hne (v := unit '\t') (by decide),
      hne (v := unit '\n') (by decide)]
  simp [start, hblank, hne (v := unit '/') (by decide), hne (v := unit '"') (by decide), h]

theorem IsWord.run {w : Text} (h : IsWord w) : Lexing.run between w = ([], word w) := by
  obtain ⟨u, w, rfl⟩ := List.exists_cons_of_ne_nil h.1
  rw [Lexing.run, step, start_of_isWordUnit (h.2 u (by simp)),
    run_word (fun v hv => h.2 v (List.mem_cons_of_mem u hv))]
  rfl

theorem IsWord.lexes {w : Text} (h : IsWord w) : Lexes w [.word w] := by
  rintro _ ⟨u, t, rfl, hu⟩
  rw [run_append_of_nil h.run]
  simp [Lexing.run, step, finish, hu]

theorem isWord_of_isValid {name : Text} (h : ImageName.isValid name) : IsWord name := by
  cases name with
  | nil => cases h
  | cons u t =>
      obtain ⟨hu, ht⟩ := Bool.and_eq_true_iff.mp h
      refine ⟨List.cons_ne_nil u t, fun v hv => ?_⟩
      have hpart : ImageName.isPart v := by
        rcases List.mem_cons.mp hv with rfl | hv
        · simp [ImageName.isPart, hu]
        · exact List.all_eq_true.mp ht v hv
      simp [isWordUnit, hpart]

theorem isWordUnit_of_digitChar : ∀ d, d < 16 → isWordUnit (unit (Nat.digitChar d)) := by decide

theorem isWordUnit_hex (width n : Nat) : ∀ u ∈ Text.hex width n, isWordUnit u := by
  induction width generalizing n with
  | zero => simp [Text.hex]
  | succ w ih =>
      intro u hu
      rcases List.mem_append.mp hu with hu | hu
      · exact ih (n / 16) u hu
      · rw [List.mem_singleton.mp hu]
        exact isWordUnit_of_digitChar _ (Nat.mod_lt n (by decide))

theorem isWord_color (c : Color) : IsWord (color c) := by
  have hfront : ∀ u ∈ lit "0x", isWordUnit u := List.all_eq_true.mp (by decide)
  refine ⟨by simp [color, show lit "0x" ≠ [] by decide], ?_⟩
  exact List.forall_mem_append.mpr ⟨hfront, isWordUnit_hex 8 _⟩

/-! ### Numbers -/

theorem isWordUnit_of_isDigit {c : Char} (h : c.isDigit) : isWordUnit (unit c) := by
  have hc : 48 ≤ c.toNat ∧ c.toNat ≤ 57 := by
    simpa [Char.isDigit, UInt32.le_iff_toNat_le] using h
  have hu : (unit c).toNat = c.toNat := by
    rw [unit, UInt16.toNat_ofNat']
    omega
  have hpart : unit '0' ≤ unit c ∧ unit c ≤ unit '9' := by
    rw [UInt16.le_iff_toNat_le, UInt16.le_iff_toNat_le, hu]
    exact hc
  simp [isWordUnit, ImageName.isPart, hpart]

theorem isWordUnit_ofNat (n : Nat) : ∀ u ∈ Text.ofNat n, isWordUnit u := by
  intro u hu
  obtain ⟨c, hc, rfl⟩ := List.mem_map.mp hu
  exact isWordUnit_of_isDigit (Nat.isDigit_of_mem_toDigits (by decide) (by decide) hc)

theorem ofNat_ne_nil (n : Nat) : Text.ofNat n ≠ [] := by simp [Text.ofNat, Nat.toDigits_ne_nil]

theorem isWordUnit_zeros (n : Int) : ∀ u ∈ Decimal.zeros n, isWordUnit u := by
  intro u hu
  rw [List.eq_of_mem_replicate hu]
  decide

theorem isWordUnit_signedExponent (e : Int) : ∀ u ∈ Decimal.signedExponent e, isWordUnit u := by
  intro u hu
  rcases List.mem_cons.mp hu with rfl | hu
  · decide
  rcases List.mem_cons.mp hu with rfl | hu
  · split <;> decide
  · exact isWordUnit_ofNat _ u hu

theorem isWord_layout (d : ShortDecimal) : IsWord (Decimal.layout d) := by
  have hdigits := isWordUnit_ofNat d.digits
  have htake (n : Nat) : ∀ u ∈ (Text.ofNat d.digits).take n, isWordUnit u :=
    fun u hu => hdigits u (List.mem_of_mem_take hu)
  have hdrop (n : Nat) : ∀ u ∈ (Text.ofNat d.digits).drop n, isWordUnit u :=
    fun u hu => hdigits u (List.mem_of_mem_drop hu)
  have hpoint : isWordUnit (unit '.') := by decide
  have hlead : ∀ u ∈ lit "0.", isWordUnit u := List.all_eq_true.mp (by decide)
  unfold Decimal.layout
  refine ⟨?_, ?_⟩
  · simp only
    repeat' split
    all_goals simp [ofNat_ne_nil]
  · simp only
    repeat' split
    all_goals
      simp only [List.forall_mem_append, List.forall_mem_cons]
    · exact ⟨hdigits, isWordUnit_zeros _⟩
    · exact ⟨htake _, hpoint, hdrop _⟩
    · exact ⟨⟨hlead, isWordUnit_zeros _⟩, hdigits⟩
    · exact ⟨hdigits, isWordUnit_signedExponent _⟩
    · exact ⟨⟨htake _, hpoint, hdrop _⟩, isWordUnit_signedExponent _⟩

theorem isWord_number (x : Float) : IsWord (number x) := by
  have hsign (negative : Bool) {t : Text} (h : IsWord t) : IsWord (Decimal.sign negative ++ t) := by
    refine ⟨by simp [h.1], List.forall_mem_append.mpr ⟨List.all_eq_true.mp ?_, h.2⟩⟩
    cases negative <;> decide
  unfold number Decimal.ofFloat
  cases Binary.ofFloat x with
  | nan => exact (by decide : IsWord (lit "NaN"))
  | infinite negative => exact hsign negative (by decide)
  | finite negative m e =>
      rw [Decimal.ofBinary]
      split
      · decide
      · exact hsign negative (isWord_layout _)

/-! ### Pieces -/

/-- A text with its lexemes. -/
structure Piece where
  text : Text
  lexemes : List Lexeme
  lexes : Lexes text lexemes

namespace Piece

def ofClosed {t : Text} {ls : List Lexeme} (h : Closed t ls) : Piece := ⟨t, ls, h.lexes⟩

def ofWord {w : Text} (h : IsWord w) : Piece := ⟨w, [.word w], h.lexes⟩

def literal (t : Text) : Piece := ofClosed (run_quoted t)

/-- A piece after a closed text. -/
def after {t : Text} {ls : List Lexeme} (h : Closed t ls) (p : Piece) : Piece :=
  ⟨t ++ p.text, ls ++ p.lexemes, h.append_lexes p.lexes⟩

/-- A piece before a closed text that does not continue a word. -/
def before (p : Piece) {t : Text} {ls : List Lexeme} (ha : Apart t) (h : Closed t ls) : Piece :=
  ofClosed (p.lexes.append_closed ha h)

theorem closed_comma : Closed (lit ", ") [.mark (unit ',')] := by decide

theorem lexes_intercalate (ps : List Piece) :
    Lexes ((lit ", ").intercalate (ps.map text)) ([.mark (unit ',')].intercalate (ps.map lexemes)) := by
  induction ps with
  | nil => exact fun rest _ => rfl
  | cons p ps ih =>
      cases ps with
      | nil => simpa using p.lexes
      | cons q ps =>
          simp only [List.map_cons, List.intercalate_cons_cons] at ih ⊢
          exact (p.lexes.append_closed (by decide) closed_comma).append_lexes ih

/-- Pieces with commas between them. -/
def listed (ps : List Piece) : Piece := ⟨_, _, lexes_intercalate ps⟩

/-! ### Values -/

theorem closed_key {key : Text} (h : IsWord key) : Closed (key ++ lit ": ") [.word key, .mark (unit ':')] :=
  h.lexes.append_closed (by decide) (by decide : Closed (lit ": ") [.mark (unit ':')])

def field (key : String) (h : IsWord (lit key)) (value : Piece) : Piece := value.after (closed_key h)

theorem closed_openBrace : Closed (lit "\x7b ") [.mark (unit '\x7b')] := by decide

theorem closed_closeBrace : Closed (lit " \x7d") [.mark (unit '\x7d')] := by decide

def record (fields : List Piece) : Piece :=
  ((listed fields).after closed_openBrace).before (by decide) closed_closeBrace

def number (x : Float) : Piece := ofWord (isWord_number x)

def point (p : Point) : Piece := record [field "x" (by decide) (number p.x), field "y" (by decide) (number p.y)]

def affine (t : Affine) : Piece :=
  record [field "a" (by decide) (number t.a), field "b" (by decide) (number t.b),
    field "c" (by decide) (number t.c), field "d" (by decide) (number t.d),
    field "e" (by decide) (number t.e), field "f" (by decide) (number t.f)]

def color (c : Color) : Piece := ofWord (isWord_color c)

def lineStyle (s : LineStyle) : Piece :=
  record [field "width" (by decide) (number s.width), field "linecap" (by decide) (literal s.cap),
    field "linejoin" (by decide) (literal s.join)]

def viewBox : Option ViewBox → Piece
  | none => ofWord (by decide : IsWord (lit "null"))
  | some box => record [field "min" (by decide) (point box.min), field "max" (by decide) (point box.max)]

theorem text_viewBox (box : Option ViewBox) : (viewBox box).text = Script.viewBox box := by
  cases box <;> rfl

/-! ### Calls and statements -/

def arguments : Call → List Piece
  | .pushTransform t => [affine t]
  | .popTransform => []
  | .beginPath => []
  | .moveTo p => [point p]
  | .lineTo p => [point p]
  | .cubicTo p q r => [point p, point q, point r]
  | .closePath => []
  | .fill c => [color c]
  | .stroke c line => [color c, lineStyle line]

/-- The word that a call begins with. -/
def methodWord (c : Call) : Text := lit "host." ++ lit (method c).1

theorem isWord_methodWord (c : Call) : IsWord (methodWord c) := by
  cases c <;> simp only [methodWord, method] <;> decide

theorem closed_method (c : Call) :
    Closed (methodWord c ++ lit "(") [.word (methodWord c), .mark (unit '(')] :=
  (isWord_methodWord c).lexes.append_closed (by decide) (by decide : Closed (lit "(") [.mark (unit '(')])

theorem closed_closeParen : Closed (lit ")") [.mark (unit ')')] := by decide

def call (c : Call) : Piece :=
  ((listed (arguments c)).after (closed_method c)).before (by decide) closed_closeParen

theorem text_call (c : Call) : (call c).text = Script.call c := by
  cases c <;> rfl

theorem closed_tabs (n : Nat) : Closed (List.replicate n (unit '\t')) [] := by
  induction n with
  | zero => rfl
  | succ n ih => exact (by decide : Closed [unit '\t'] []).append ih

def indent (n : Nat) (p : Piece) : Piece := p.after (closed_tabs n)

def statement : Statement → List Piece
  | .call c => [call c]
  | .guarded body last =>
      ofClosed (by decide : Closed (lit "try \x7b") [.word (lit "try"), .mark (unit '\x7b')]) ::
        body.map (fun c => indent 1 (call c)) ++
        [ofClosed (by decide : Closed (lit "\x7d finally \x7b")
            [.mark (unit '\x7d'), .word (lit "finally"), .mark (unit '\x7b')]),
          indent 1 (call last), ofClosed (by decide : Closed (lit "\x7d") [.mark (unit '\x7d')])]

theorem lines_statement (s : Statement) : s.lines = (statement s).map text := by
  cases s with
  | call c => simp only [Statement.lines, statement, List.map_cons, List.map_nil, text_call]
  | guarded body last =>
      simp only [Statement.lines, statement, List.map_cons, List.map_append, List.map_map, List.map_nil,
        Function.comp_def, indent, after, text_call]
      rfl

end Piece

/-! ### Lines -/

theorem ofLines_cons (line : Text) (lines : List Text) :
    ofLines (line :: lines) = line ++ [unit '\n'] ++ ofLines lines := List.flatMap_cons

theorem ofLines_append (lines lines' : List Text) : ofLines (lines ++ lines') = ofLines lines ++ ofLines lines' :=
  List.flatMap_append

theorem Lexes.closed_line {t : Text} {ls : List Lexeme} (h : Lexes t ls) : Closed (t ++ [unit '\n']) ls := by
  have := h.append_closed (by decide) (by decide : Closed [unit '\n'] [])
  rwa [List.append_nil] at this

theorem closed_ofLines (ps : List Piece) : Closed (ofLines (ps.map Piece.text)) (ps.flatMap Piece.lexemes) := by
  induction ps with
  | nil => rfl
  | cons p ps ih =>
      rw [List.map_cons, ofLines_cons, List.flatMap_cons]
      exact p.lexes.closed_line.append ih

/-! ### Images and modules -/

/-- The statements that draw a picture. -/
def statements (p : Picture) : List Statement := p.shapes.flatMap Shape.statements

def statementLexemes (s : Statement) : List Lexeme := (Piece.statement s).flatMap Piece.lexemes

def imageLexemes (image : Image) : List Lexeme :=
  [.word (lit "export"), .word (lit "const"), .word image.name, .mark (unit ':'), .word (lit "CompiledImage"),
    .mark (unit '='), .mark (unit '\x7b'), .word (lit "viewBox"), .mark (unit ':')] ++
  (Piece.viewBox image.picture.viewBox).lexemes ++
  [.mark (unit ','), .word (lit "draw"), .mark (unit '('), .word (lit "host"), .mark (unit ':'),
    .word (lit "DrawHost"), .mark (unit ')'), .mark (unit ':'), .word (lit "void"), .mark (unit '\x7b')] ++
  (statements image.picture).flatMap statementLexemes ++
  [.mark (unit '\x7d'), .mark (unit ','), .mark (unit '\x7d')]

def headerLexemes (hostModule : Text) : List Lexeme :=
  [.word (lit "import"), .word (lit "type"), .mark (unit '\x7b'), .word (lit "CompiledImage"), .mark (unit ','),
    .word (lit "DrawHost"), .mark (unit '\x7d'), .word (lit "from"), .literal hostModule]

/-- The lines of an image constant. -/
def Piece.image (image : Image) (h : ImageName.isValid image.name) : List Piece :=
  [((ofWord (isWord_of_isValid h)).after
      (by decide : Closed (lit "export const ") [.word (lit "export"), .word (lit "const")])).before (by decide)
      (by decide : Closed (lit ": CompiledImage = \x7b")
        [.mark (unit ':'), .word (lit "CompiledImage"), .mark (unit '='), .mark (unit '\x7b')]),
    indent 1 (((viewBox image.picture.viewBox).after
      (by decide : Closed (lit "viewBox: ") [.word (lit "viewBox"), .mark (unit ':')])).before (by decide)
      (by decide : Closed (lit ",") [.mark (unit ',')])),
    indent 1 (ofClosed (by decide : Closed (lit "draw(host: DrawHost): void \x7b")
      [.word (lit "draw"), .mark (unit '('), .word (lit "host"), .mark (unit ':'), .word (lit "DrawHost"),
        .mark (unit ')'), .mark (unit ':'), .word (lit "void"), .mark (unit '\x7b')]))] ++
  ((statements image.picture).flatMap fun s => (statement s).map (indent 2)) ++
  [indent 1 (ofClosed (by decide : Closed (lit "\x7d,") [.mark (unit '\x7d'), .mark (unit ',')])),
    ofClosed (by decide : Closed (lit "\x7d") [.mark (unit '\x7d')])]

theorem shapeLines_eq (p : Picture) :
    (p.shapes.flatMap fun s => s.statements.flatMap Statement.lines).map (indent 2) =
      ((statements p).flatMap fun s => (Piece.statement s).map (Piece.indent 2)).map Piece.text := by
  simp only [statements, List.flatMap_assoc, List.map_flatMap, List.map_map, Piece.lines_statement]
  rfl

theorem imageLines_eq {image : Image} (h : ImageName.isValid image.name) :
    imageLines image = (Piece.image image h).map Piece.text := by
  rw [Piece.image, List.map_append, List.map_append, ← shapeLines_eq]
  simp only [imageLines, ← Piece.text_viewBox]
  rfl

theorem lexemes_image {image : Image} (h : ImageName.isValid image.name) :
    (Piece.image image h).flatMap Piece.lexemes = imageLexemes image := by
  have hbody : ((statements image.picture).flatMap fun s => (Piece.statement s).map (Piece.indent 2)).flatMap
      Piece.lexemes = (statements image.picture).flatMap statementLexemes := by
    simp only [List.flatMap_assoc, List.flatMap_map]
    rfl
  rw [Piece.image, List.flatMap_append, List.flatMap_append, hbody]
  simp [imageLexemes, Piece.after, Piece.before, Piece.indent, Piece.ofClosed, Piece.ofWord]

theorem closed_blank : Closed ([] ++ [unit '\n']) [] := by decide

theorem closed_images {images : List Image} (h : ∀ i ∈ images, ImageName.isValid i.name) :
    Closed (ofLines (images.flatMap fun i => [] :: imageLines i)) (images.flatMap imageLexemes) := by
  induction images with
  | nil => rfl
  | cons i images ih =>
      have hi : ImageName.isValid i.name := h i (by simp)
      have hrest := ih (fun j hj => h j (List.mem_cons_of_mem i hj))
      have himage := closed_blank.append (closed_ofLines (Piece.image i hi))
      rw [lexemes_image, ← imageLines_eq] at himage
      rw [List.flatMap_cons, List.flatMap_cons, ofLines_append, ofLines_cons]
      exact himage.append hrest

theorem closed_header (hostModule : Text) : Closed (ofLines (headerLines hostModule)) (headerLexemes hostModule) := by
  have hcomment : Closed (lit "// Code generated by svgop; DO NOT EDIT." ++ [unit '\n']) [] := by decide
  have himport : Closed (lit "import type \x7b CompiledImage, DrawHost \x7d from ")
      [.word (lit "import"), .word (lit "type"), .mark (unit '\x7b'), .word (lit "CompiledImage"), .mark (unit ','),
        .word (lit "DrawHost"), .mark (unit '\x7d'), .word (lit "from")] := by decide
  have hlast := ((Piece.literal hostModule).after himport).lexes.closed_line
  exact hcomment.append (closed_blank.append (hlast.append (rfl : Closed [] [])))

/-- The lexemes of a module. -/
theorem lexemes?_module (hostModule : Text) {images : List Image} (h : ∀ i ∈ images, ImageName.isValid i.name) :
    lexemes? (ofLines (headerLines hostModule ++ images.flatMap fun i => [] :: imageLines i)) =
      some (headerLexemes hostModule ++ images.flatMap imageLexemes) := by
  have hclosed := (closed_header hostModule).append (closed_images h)
  rw [← ofLines_append] at hclosed
  rw [lexemes?, hclosed]

end Script
end Pictogram
