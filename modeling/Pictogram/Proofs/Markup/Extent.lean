import Mathlib.Tactic.SplitIfs
import Pictogram.Proofs.Markup.TagReading
import Pictogram.Proofs.Markup.Travel
import Pictogram.Proofs.Text.Search

/-! # What a construct spans

Each construct that is read passes a text of a certain form: `Skipped` for those that yield no token,
`Written` for those that yield one.  `Written` also says what the token does to the open elements and
whether a closing token is owed after it.

So a token that `next` yields is either the closing token that was owed, or it stands where its text
begins, after skipped constructs only (`next_cases`). -/

namespace Pictogram

namespace Cursor

theorem passes_of_past? {c d : Cursor} {stop t : Text} (h : c.past? stop = some (t, d)) :
    c.Passes (t ++ stop) d ∧ Text.EndsFirst stop (t ++ stop) := by
  obtain ⟨n, hn, e⟩ := Option.map_eq_some_iff.mp h
  obtain ⟨rfl, rfl⟩ := Prod.mk.inj e
  obtain ⟨front, rest, hrest, rfl, hends⟩ := Text.endsFirst_of_offsetOf? hn
  have htake : c.rest.take (0 + front.length) = front := by rw [hrest, Nat.zero_add, List.take_left]
  have hprefix : front ++ stop <+: c.rest := ⟨rest, by rw [hrest, List.append_assoc]⟩
  have hpasses := passes_of_prefix hprefix
  rw [List.length_append, ← Nat.zero_add front.length] at hpasses
  rw [htake]
  exact ⟨hpasses, hends⟩

theorem passes_of_readPast {c d : Cursor} {stop t : Text} {enclosure : Enclosure}
    (h : c.readPast stop enclosure = .ok t d) : c.Passes (t ++ stop) d ∧ Text.EndsFirst stop (t ++ stop) := by
  unfold readPast at h
  split at h
  · next hp =>
    cases h
    exact passes_of_past? hp
  · cases h

/-- Opening brackets less closing ones. -/
def brackets (t : Text) : Int := t.count (unit '[') - t.count (unit ']')

/-- A declaration up to its first `>` that has as many brackets closed as opened before it. -/
structure IsDeclaration (body : Text) (depth : Int) : Prop where
  closed : depth + brackets body = 0
  first : ∀ front back, body = front ++ unit '>' :: back → depth + brackets front ≠ 0

theorem IsDeclaration.cons {body : Text} {depth : Int} {u : CodeUnit}
    (h : IsDeclaration body (depth + brackets [u])) (hu : u = unit '>' → depth ≠ 0) :
    IsDeclaration (u :: body) depth := by
  have hcons (t : Text) : brackets (u :: t) = brackets [u] + brackets t := by
    simp only [brackets, List.count_cons, List.count_nil]
    push_cast
    omega
  refine ⟨?_, ?_⟩
  · have := h.closed
    rw [hcons]
    omega
  · intro front back e
    rcases front with _ | ⟨v, front⟩
    · simpa [brackets] using hu (List.cons.inj e).1
    · obtain ⟨rfl, hbody⟩ := List.cons.inj e
      have := h.first front back hbody
      rw [hcons]
      omega

theorem isDeclaration_of_declarationLength? {depth : Int} {n k : Nat} {t : Text}
    (h : declarationLength? depth n t = some k) :
    ∃ body rest, t = body ++ unit '>' :: rest ∧ k = n + body.length + 1 ∧ IsDeclaration body depth := by
  fun_induction declarationLength? depth n t with
  | case1 => cases h
  | case2 depth n t ih =>
      obtain ⟨body, rest, rfl, rfl, hbody⟩ := ih h
      refine ⟨unit '[' :: body, rest, rfl, by simp only [List.length_cons]; omega, ?_⟩
      exact IsDeclaration.cons hbody (fun e => absurd e (by decide))
  | case3 depth n t _ ih =>
      obtain ⟨body, rest, rfl, rfl, hbody⟩ := ih h
      refine ⟨unit ']' :: body, rest, rfl, by simp only [List.length_cons]; omega, ?_⟩
      exact IsDeclaration.cons hbody (fun e => absurd e (by decide))
  | case4 depth n u t _ _ hu =>
      obtain ⟨rfl, rfl⟩ := hu
      cases h
      exact ⟨[], t, rfl, rfl, rfl, by simp⟩
  | case5 depth n u t hopen hclose hu ih =>
      obtain ⟨body, rest, rfl, rfl, hbody⟩ := ih h
      refine ⟨u :: body, rest, rfl, by simp only [List.length_cons]; omega, ?_⟩
      have hzero : brackets [u] = 0 := by simp [brackets, hopen, hclose]
      apply IsDeclaration.cons
      · rwa [hzero, Int.add_zero]
      · intro e hdepth
        exact hu ⟨e, hdepth⟩

theorem passes_of_readDeclaration {c d : Cursor} {t : Text} (h : c.readDeclaration = .ok t d) :
    ∃ body, c.Passes (body ++ [unit '>']) d ∧ IsDeclaration body 0 := by
  unfold readDeclaration at h
  split at h
  · next k hk =>
    cases h
    obtain ⟨body, rest, hrest, rfl, hbody⟩ := isDeclaration_of_declarationLength? hk
    refine ⟨body, ?_, hbody⟩
    have hprefix : body ++ [unit '>'] <+: c.rest := ⟨rest, by rw [hrest, List.append_assoc]; rfl⟩
    have := passes_of_prefix hprefix
    rwa [List.length_append, List.length_singleton, ← Nat.zero_add body.length] at this
  · cases h

end Cursor

/-! ### Tags -/

namespace Tag

open Source

theorem passes_of_readBracket {c d : Cursor} {element t : Text} {u : CodeUnit} {selfClosing : Bool}
    (hc : c.rest = u :: t) (hu : EndsTag u) (h : readBracket element c = .ok selfClosing d) :
    c.Passes (bracket selfClosing) d := by
  unfold readBracket at h
  split at h
  · next hslash =>
    split at h
    · next hangle =>
      cases h
      rw [hc] at hslash hangle
      obtain rfl : u = unit '/' := by simpa using hslash
      obtain ⟨rest, rfl⟩ : ∃ rest, t = unit '>' :: rest := by
        cases t with
        | nil => cases hangle
        | cons v rest => exact ⟨rest, by rw [show v = unit '>' by simpa using hangle]⟩
      exact Cursor.passes_of_prefix (t := [unit '/', unit '>']) ⟨rest, hc.symm⟩
    · cases h
  · next hslash =>
    cases h
    have hne : u ≠ unit '/' := by
      rintro rfl
      exact hslash (by rw [hc]; rfl)
    obtain rfl := hu.resolve_right hne
    exact Cursor.passes_of_prefix (t := [unit '>']) ⟨t, hc.symm⟩

/-- Attributes end where the tag does. -/
theorem endsTag_of_readAttributes {ended : Fault} {element : Text} {found attributes : Table} {c d : Cursor}
    (h : readAttributes ended element found c = .ok attributes d) : ∃ u t, d.rest = u :: t ∧ EndsTag u := by
  fun_induction readAttributes ended element found c with
  | case1 => cases h
  | case2 found c u t hrest hu =>
      cases h
      exact ⟨u, t, hrest, hu⟩
  | case3 => cases h
  | case4 found c u t _ _ key value s _ _ ih => exact ih h

theorem isName_name {c : Cursor} (h : c.name.1 ≠ []) : IsName c.name.1 :=
  ⟨h, List.all_eq_true.mp List.all_takeWhile⟩

/-- What an opening tag spans. -/
theorem passes_of_readOpening {ended : Fault} {c d : Cursor} {tag : OpeningTag} {t : Text}
    (hended : ended.code.isMarkup) (hc : c.rest = unit '<' :: t) (h : readOpening ended c = .ok tag d) :
    ∃ inside, c.Passes (unit '<' :: (tag.written ++ (inside ++ bracket tag.selfClosing))) d ∧ IsName tag.written ∧
      ∀ u ∈ (inside ++ bracket tag.selfClosing).head?, Cursor.isNameUnit u = false := by
  have hangle : c.Passes [unit '<'] (c.advance 1) := Cursor.passes_of_prefix (t := [unit '<']) ⟨t, hc.symm⟩
  have hname := (c.advance 1).passes_name
  unfold readOpening at h
  dsimp only at h
  split at h
  · cases h
  · next hne =>
    split at h
    · cases h
    · next s ha =>
      split at h
      · cases h
      · next hb =>
        cases h
        obtain ⟨inside, hinside⟩ := (ha ▸ goes_readAttributes _ _ hended (.refl _)).reaches
        obtain ⟨u, t', hs, hu⟩ := endsTag_of_readAttributes ha
        have hbracket := passes_of_readBracket hs hu hb
        have htail := hinside.trans hbracket
        refine ⟨inside, (hangle.trans (hname.trans htail)), isName_name hne, ?_⟩
        intro v hv
        apply Cursor.head_takeWhile (c := c.advance 1)
        show v ∈ (c.advance 1).name.2.rest.head?
        rw [htail.rest_eq, List.head?_append]
        rw [Option.mem_def] at hv ⊢
        rw [hv]
        rfl

/-- What a closing tag spans. -/
theorem passes_of_readClosing {ended : Fault} {c d : Cursor} {written t : Text} (hc : c.rest = lit "</" ++ t)
    (h : readClosing ended c = .ok written d) :
    ∃ b, IsBlank b ∧ c.Passes (lit "</" ++ (written ++ (b ++ lit ">"))) d := by
  have hfront : c.Passes (lit "</") (c.advance 2) := Cursor.passes_of_prefix (t := lit "</") ⟨t, hc.symm⟩
  have hname := (c.advance 2).passes_name
  have hblank := (c.advance 2).name.2.passes_takeWhile CodeUnit.isBlank
  unfold readClosing at h
  dsimp only at h
  split at h
  · cases h
  · next u rest hrest =>
    split at h <;> cases h
    next hu =>
      rw [hu] at hrest
      have hend : (c.advance 2).name.2.skipBlanks.Passes (lit ">") ((c.advance 2).name.2.skipBlanks.advance 1) :=
        Cursor.passes_of_prefix (t := lit ">") ⟨rest, hrest.symm⟩
      exact ⟨_, List.all_eq_true.mp List.all_takeWhile, hfront.trans (hname.trans (hblank.trans hend))⟩

end Tag

/-! ### Constructs -/

def Token.position : Token → Position
  | opening _ _ place | closing _ place | text _ place => place

/-- A construct that yields no token, as it is written. -/
inductive Skipped : Text → Prop
  | comment {t : Text} : lit "<!--" <+: t → Text.EndsFirst (lit "-->") t → Skipped t
  | instruction {t : Text} : lit "<?" <+: t → Text.EndsFirst (lit "?>") t → Skipped t
  | declaration {body : Text} : lit "<!" <+: body → ¬ lit "<!--" <+: body → ¬ lit "<![CDATA[" <+: body →
      Cursor.IsDeclaration body 0 → Skipped (body ++ [unit '>'])

/-- A construct that yields a token, as it is written in front of `rest`: the token, the elements open
before and after it, and the closing token that is owed after it. -/
inductive Written : List OpenElement → Token → (construct rest : Text) → List OpenElement →
    Option (ElementName × Position) → Prop
  | opening {opened : List OpenElement} {e : OpenElement} {inside rest : Text} (attributes : Table)
      (place : Position) (selfClosing : Bool) : Source.IsName e.written →
      (∀ u ∈ (inside ++ Tag.bracket selfClosing).head?, Cursor.isNameUnit u = false) →
      Written opened (.opening e.name attributes place)
        (unit '<' :: (e.written ++ (inside ++ Tag.bracket selfClosing))) rest (e :: opened)
        (if selfClosing then some (e.name, place) else none)
  | closing {opened : List OpenElement} {e : OpenElement} {b rest : Text} (place : Position) : Source.IsBlank b →
      Written (e :: opened) (.closing e.name place) (lit "</" ++ (e.written ++ (b ++ lit ">"))) rest opened none
  | text {opened : List OpenElement} {raw content rest : Text} (place : Position) : raw ≠ [] → unit '<' ∉ raw →
      (∀ u ∈ rest.head?, u = unit '<') → Reference.decode raw = .ok content →
      Written opened (.text content place) raw rest opened none
  | characterData {opened : List OpenElement} {content rest : Text} (place : Position) :
      Text.EndsFirst (lit "]]>") (content ++ lit "]]>") →
      Written opened (.text content place) (lit "<![CDATA[" ++ (content ++ lit "]]>")) rest opened none

/-- A closing token is owed only after an opening tag that ends in `/>`. -/
theorem Written.of_owed {opened opened' : List OpenElement} {t : Token} {construct rest : Text}
    {name : ElementName} {place : Position} (h : Written opened t construct rest opened' (some (name, place))) :
    ∃ e attributes front, t = .opening name attributes place ∧ e.name = name ∧ opened' = e :: opened ∧
      construct = front ++ lit "/>" := by
  generalize howed : some (name, place) = owed at h
  cases h with
  | @opening _ e inside _ attributes _ selfClosing =>
      cases selfClosing with
      | false => cases howed
      | true =>
          cases howed
          refine ⟨e, attributes, unit '<' :: (e.written ++ inside), rfl, rfl, rfl, ?_⟩
          simp only [Tag.bracket, List.cons_append, List.append_assoc, if_true]
  | closing => cases howed
  | text => cases howed
  | characterData => cases howed

namespace Construct

/-- What a construct begins with. -/
def front : Construct → Text
  | comment => lit "<!--"
  | instruction => lit "<?"
  | characterData => lit "<![CDATA["
  | declaration => lit "<!"
  | closingTag => lit "</"
  | openingTag => lit "<"
  | text => []

theorem front_prefix (t : Text) : (ofText t).front <+: t := by
  unfold ofText
  split_ifs with h₁ h₂ h₃ h₄ h₅ h₆
  · exact Text.startsWith_iff.mp h₁
  · exact Text.startsWith_iff.mp h₂
  · exact Text.startsWith_iff.mp h₃
  · exact Text.startsWith_iff.mp h₄
  · exact Text.startsWith_iff.mp h₅
  · exact Text.startsWith_iff.mp h₆
  · exact List.nil_prefix

theorem not_prefix_of_declaration {t : Text} (h : ofText t = .declaration) :
    ¬ lit "<!--" <+: t ∧ ¬ lit "<![CDATA[" <+: t := by
  constructor
  · intro hp
    rw [ofText, if_pos (Text.startsWith_iff.mpr hp)] at h
    cases h
  · intro hp
    unfold ofText at h
    rw [if_pos (Text.startsWith_iff.mpr hp)] at h
    split_ifs at h

end Construct

/-- A construct keeps its front when it is cut off behind its terminator. -/
theorem front_prefix_append (stop : Text) {front t rest : Text} {u v : CodeUnit} (hfront : u :: front <+: rest)
    (ht : t ++ v :: stop <+: rest) (huv : u ≠ v) (hlength : front.length ≤ stop.length + 1) :
    u :: front <+: t ++ v :: stop := by
  apply List.prefix_of_prefix_length_le hfront ht
  rcases t with _ | ⟨w, t⟩
  · obtain ⟨a, rfl⟩ := hfront
    obtain ⟨b, hb⟩ := ht
    exact absurd (List.cons.inj hb).1.symm huv
  · simp only [List.length_cons, List.length_append]
    omega

/-- A declaration that is passed is a skipped construct; it is neither a comment nor character data. -/
theorem skipped_of_readDeclaration {c d : Cursor} {t : Text} (hk : Construct.ofText c.rest = .declaration)
    (h : c.readDeclaration = .ok t d) : ∃ t, c.Passes t d ∧ Skipped t := by
  obtain ⟨body, hpasses, hbody⟩ := Cursor.passes_of_readDeclaration h
  obtain ⟨hcomment, hdata⟩ := Construct.not_prefix_of_declaration hk
  have hprefix : body <+: c.rest := ⟨_, by rw [hpasses.rest_eq, List.append_assoc]⟩
  have hfront := Construct.front_prefix c.rest
  rw [hk] at hfront
  have hlength : (lit "<!").length ≤ body.length := by
    obtain ⟨tail, htail⟩ := hfront
    rw [hpasses.rest_eq] at htail
    rcases body with _ | ⟨u, _ | ⟨v, body⟩⟩
    · cases htail
    · cases htail
    · simp only [List.length_cons]
      exact Nat.le_add_left _ _
  refine ⟨_, hpasses, .declaration (List.prefix_of_prefix_length_le hfront hprefix hlength) ?_ ?_ hbody⟩
  · intro hp
    exact hcomment (hp.trans hprefix)
  · intro hp
    exact hdata (hp.trans hprefix)

namespace Reader

theorem skipped_of_step {r s : Reader} (h : r.step = .ok none s) :
    ∃ t, r.cursor.Passes t s.cursor ∧ Skipped t := by
  have hfront := Construct.front_prefix r.cursor.rest
  simp only [step] at h
  split at h
  · next hk =>
    obtain ⟨t, c, hc, e⟩ := lift_eq_ok h
    cases e
    obtain ⟨hpasses, hends⟩ := Cursor.passes_of_readPast hc
    rw [hk] at hfront
    exact ⟨_, hpasses, .comment (front_prefix_append (lit "->") hfront ⟨_, hpasses.rest_eq.symm⟩
      (by decide) (by decide)) hends⟩
  · next hk =>
    obtain ⟨t, c, hc, e⟩ := lift_eq_ok h
    cases e
    obtain ⟨hpasses, hends⟩ := Cursor.passes_of_readPast hc
    rw [hk] at hfront
    exact ⟨_, hpasses, .instruction (front_prefix_append (lit ">") hfront ⟨_, hpasses.rest_eq.symm⟩
      (by decide) (by decide)) hends⟩
  · obtain ⟨t, c, hc, e⟩ := lift_eq_ok h
    cases e
  · next hk =>
    obtain ⟨t, c, hc, e⟩ := lift_eq_ok h
    cases e
    exact skipped_of_readDeclaration hk hc
  · obtain ⟨t, c, _, e⟩ := lift_eq_ok h
    unfold leave at e
    repeat' split at e
    all_goals cases e
  · obtain ⟨t, c, _, e⟩ := lift_eq_ok h
    cases e
  · simp only [readText] at h
    split at h <;> cases h

/-- The token is written at the cursor of `r` and placed there, and `s` is the reader behind it. -/
def WrittenAt (r : Reader) (t : Token) (s : Reader) : Prop :=
  ∃ construct, r.cursor.Passes construct s.cursor ∧
    Written r.opened t construct s.cursor.rest s.opened s.pending ∧ t.position = r.cursor.position

theorem writtenAt_of_leave {r s : Reader} {t : Token} {c : Cursor} {written b : Text} (hp : r.pending = none)
    (hb : Source.IsBlank b) (hc : r.cursor.Passes (lit "</" ++ (written ++ (b ++ lit ">"))) c)
    (h : leave { r with cursor := c } written r.cursor.position = .ok (some t) s) : r.WrittenAt t s := by
  unfold leave at h
  split at h
  · cases h
  · next e outer ho =>
    split at h
    · next hw =>
      cases h
      subst hw
      refine ⟨_, hc, ?_, rfl⟩
      change r.opened = e :: outer at ho
      rw [ho, hp]
      exact .closing _ hb
    · cases h

theorem writtenAt_of_enter {r s : Reader} {t : Token} {c : Cursor} {tag : OpeningTag} {inside : Text}
    (hp : r.pending = none) (hname : Source.IsName tag.written)
    (hhead : ∀ u ∈ (inside ++ Tag.bracket tag.selfClosing).head?, Cursor.isNameUnit u = false)
    (hc : r.cursor.Passes (unit '<' :: (tag.written ++ (inside ++ Tag.bracket tag.selfClosing))) c)
    (h : enter { r with cursor := c } tag r.cursor.position = .ok (some t) s) : r.WrittenAt t s := by
  have hwritten := @Written.opening r.opened
    ⟨tag.written, ElementName.resolve (tag.attributes.declarations :: r.opened.map OpenElement.declared)
      tag.written, tag.attributes.declarations⟩ inside c.rest
    tag.attributes.unlabelled r.cursor.position tag.selfClosing hname hhead
  cases hs : tag.selfClosing with
  | true =>
      rw [hs] at hwritten hc
      simp only [enter, hs] at h
      cases h
      exact ⟨_, hc, hwritten, rfl⟩
  | false =>
      rw [hs] at hwritten hc
      simp only [enter, hs] at h
      cases h
      refine ⟨_, hc, ?_, rfl⟩
      rw [hp]
      exact hwritten

theorem writtenAt_of_readText {r s : Reader} {t : Token} (hp : r.pending = none) (hr : r.cursor.rest ≠ [])
    (hk : Construct.ofText r.cursor.rest = .text) (h : r.readText = .ok (some t) s) : r.WrittenAt t s := by
  simp only [readText] at h
  split at h
  · cases h
  · next content hd =>
    cases h
    obtain ⟨u, tail, hrest⟩ := List.exists_cons_of_ne_nil hr
    have hu : u ≠ unit '<' := ne_of_ofText_eq_text (hrest ▸ hk)
    refine ⟨_, r.cursor.passes_takeWhile (· ≠ unit '<'), ?_, rfl⟩
    rw [hp]
    refine .text _ ?_ ?_ ?_ hd
    · simp [Cursor.takeWhile, hrest, hu]
    · intro hm
      have := List.all_eq_true.mp List.all_takeWhile _ hm
      simp at this
    · intro v hv
      simpa using Cursor.head_takeWhile hv

/-- A construct that yields a token is written at the cursor, and the token is placed there. -/
theorem writtenAt_of_step {r s : Reader} {t : Token} (hp : r.pending = none) (hr : r.cursor.rest ≠ [])
    (h : r.step = .ok (some t) s) : r.WrittenAt t s := by
  have hended := Fault.isMarkup_unexpectedEnd r.opened
  have hfront := Construct.front_prefix r.cursor.rest
  simp only [step] at h
  split at h
  · obtain ⟨_, c, _, e⟩ := lift_eq_ok h
    cases e
  · obtain ⟨_, c, _, e⟩ := lift_eq_ok h
    cases e
  · next hk =>
    obtain ⟨content, c, hc, e⟩ := lift_eq_ok h
    cases e
    rw [hk] at hfront
    obtain ⟨hpasses, hends⟩ := Cursor.passes_of_readPast hc
    have hopen : r.cursor.Passes (lit "<![CDATA[") (r.cursor.advance 9) := Cursor.passes_of_prefix hfront
    refine ⟨_, hopen.trans hpasses, ?_, rfl⟩
    rw [hp]
    exact .characterData _ hends
  · obtain ⟨_, c, _, e⟩ := lift_eq_ok h
    cases e
  · next hk =>
    obtain ⟨written, c, hc, e⟩ := lift_eq_ok h
    rw [hk] at hfront
    obtain ⟨tail, htail⟩ := hfront
    obtain ⟨b, hb, hpasses⟩ := Tag.passes_of_readClosing htail.symm hc
    exact writtenAt_of_leave hp hb hpasses e
  · next hk =>
    obtain ⟨tag, c, hc, e⟩ := lift_eq_ok h
    rw [hk] at hfront
    obtain ⟨tail, htail⟩ := hfront
    obtain ⟨inside, hpasses, hname, hhead⟩ := Tag.passes_of_readOpening hended htail.symm hc
    exact writtenAt_of_enter hp hname hhead hpasses e
  · next hk => exact writtenAt_of_readText hp hr hk h

/-- A token of the text is written behind skipped constructs, and is placed where its text begins. -/
theorem written_of_read {r s : Reader} {t : Token} (hp : r.pending = none) (h : r.read = .ok (some t) s) :
    ∃ pieces d construct, (∀ piece ∈ pieces, Skipped piece) ∧ r.cursor.Passes (List.flatten pieces) d ∧
      d.Passes construct s.cursor ∧ Written r.opened t construct s.cursor.rest s.opened s.pending ∧
      t.position = d.position := by
  fun_induction read r with
  | case1 => cases h
  | case2 => cases h
  | case3 r hr t s hs =>
      cases h
      obtain ⟨construct, hpasses, hwritten, hposition⟩ := writtenAt_of_step hp hr hs
      exact ⟨[], r.cursor, construct, by simp, .refl _, hpasses, hwritten, hposition⟩
  | case4 r hr s' hs _ ih =>
      have e := eq_of_step_none hs
      have ho : s'.opened = r.opened := by rw [e]
      have hp' : s'.pending = none := by rw [e]; exact hp
      obtain ⟨piece, hpiece, hskipped⟩ := skipped_of_step hs
      obtain ⟨pieces, d, construct, hall, hpieces, hconstruct, hwritten, hposition⟩ := ih hp' h
      refine ⟨piece :: pieces, d, construct, ?_, hpiece.trans hpieces, hconstruct, ho ▸ hwritten, hposition⟩
      exact List.forall_mem_cons.mpr ⟨hskipped, hall⟩

/-- A token is the closing token that was owed, or it is written in the text. -/
theorem next_cases {r s : Reader} {t : Token} (h : r.next = .ok (some t) s) :
    (∃ name place, r.pending = some (name, place) ∧ t = .closing name place ∧
      s = { r with opened := r.opened.tail, pending := none }) ∨
    (r.pending = none ∧ ∃ pieces d construct, (∀ piece ∈ pieces, Skipped piece) ∧
      r.cursor.Passes (List.flatten pieces) d ∧ d.Passes construct s.cursor ∧
      Written r.opened t construct s.cursor.rest s.opened s.pending ∧ t.position = d.position) := by
  unfold next at h
  split at h
  · next name place hp =>
    cases h
    exact .inl ⟨name, place, hp, rfl, rfl⟩
  · next hp => exact .inr ⟨hp, written_of_read hp h⟩

end Reader
end Pictogram
