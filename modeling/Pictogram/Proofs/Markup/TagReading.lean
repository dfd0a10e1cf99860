import Pictogram.Proofs.Markup.Source

/-! # Reading written tags

What a cursor finds where a tag is written.  A stretch of units ends where the next unit is of another
kind, so blanks, names and values are found again whole (`takeWhile_eq`); the attributes of a tag are
read back in order (`readAttributes_eq`), and so are whole tags (`readOpening_eq`, `readClosing_eq`). -/

namespace Pictogram

/-! ### Units -/

theorem not_isNameUnit_of_isBlank {u : CodeUnit} (h : u.isBlank) : Cursor.isNameUnit u = false := by
  simp only [CodeUnit.isBlank, blankRanges, List.any_cons, List.any_nil, Bool.or_false, Bool.or_eq_true,
    Bool.and_eq_true, decide_eq_true_eq, UInt16.le_iff_toNat_le] at h
  simp only [Cursor.isNameUnit, CodeUnit.isAlphanumeric, Bool.or_eq_false_iff, Bool.and_eq_false_iff,
    decide_eq_false_iff_not, UInt16.le_iff_toNat_le, ← UInt16.toNat_inj, unit]
  simp at h ⊢
  omega

theorem not_isBlank_of_isNameUnit {u : CodeUnit} (h : Cursor.isNameUnit u) : u.isBlank = false := by
  cases hb : u.isBlank with
  | false => rfl
  | true => rw [not_isNameUnit_of_isBlank hb] at h; cases h

theorem Tag.eq_of_isQuote {u : CodeUnit} (h : Tag.isQuote u) : u = unit '"' ∨ u = unit '\'' := by
  simpa [Tag.isQuote] using h

/-- The units that close a tag. -/
def Tag.EndsTag (u : CodeUnit) : Prop := u = unit '>' ∨ u = unit '/'

theorem Tag.EndsTag.not_isBlank {u : CodeUnit} (h : Tag.EndsTag u) : u.isBlank = false := by
  rcases h with rfl | rfl <;> decide

theorem Tag.EndsTag.not_isNameUnit {u : CodeUnit} (h : Tag.EndsTag u) : Cursor.isNameUnit u = false := by
  rcases h with rfl | rfl <;> decide

namespace Cursor

/-- A stretch of units that satisfy `p` is taken whole when the unit after it does not. -/
theorem takeWhile_eq {c : Cursor} {p : CodeUnit → Bool} {a b : Text} (h : c.rest = a ++ b)
    (ha : ∀ u ∈ a, p u) (hb : ∀ u ∈ b.head?, p u = false) :
    (c.takeWhile p).1 = a ∧ (c.takeWhile p).2.rest = b := by
  have ht : c.rest.takeWhile p = a := by
    rw [h, List.takeWhile_append_of_pos ha]
    cases b with
    | nil => simp
    | cons u b => rw [List.takeWhile_cons_of_neg (by simp [hb u rfl]), List.append_nil]
  refine ⟨ht, ?_⟩
  simp only [takeWhile, advance, ht]
  rw [h, List.drop_left]

theorem rest_advance {c : Cursor} {a b : Text} (h : c.rest = a ++ b) {n : Nat} (hn : a.length = n) :
    (c.advance n).rest = b := by
  simp only [advance]
  rw [h, ← hn, List.drop_left]

theorem rest_skipBlanks {c : Cursor} {a b : Text} (h : c.rest = a ++ b) (ha : Source.IsBlank a)
    (hb : ∀ u ∈ b.head?, u.isBlank = false) : c.skipBlanks.rest = b := (takeWhile_eq h ha hb).2

theorem name_eq {c : Cursor} {a b : Text} (h : c.rest = a ++ b) (ha : ∀ u ∈ a, isNameUnit u)
    (hb : ∀ u ∈ b.head?, isNameUnit u = false) : c.name.1 = a ∧ c.name.2.rest = b := takeWhile_eq h ha hb

end Cursor

namespace Tag

open Source

/-! ### Attributes -/

theorem readValue_eq {c : Cursor} {quote : CodeUnit} {raw rest value : Text} (ended : Fault) (key : Text)
    (place : Position) (hq : isQuote quote) (hr : quote ∉ raw) (hd : Reference.decode raw = .ok value)
    (h : c.rest = quote :: (raw ++ quote :: rest)) :
    ∃ c', readValue ended key place c = .ok value c' ∧ c'.rest = rest := by
  have h₁ : (c.advance 1).rest = raw ++ quote :: rest := Cursor.rest_advance (a := [quote]) h rfl
  obtain ⟨hraw, hrest⟩ := Cursor.takeWhile_eq (p := (· ≠ quote)) h₁
    (fun u hu => by simpa using fun e : u = quote => hr (e ▸ hu)) (by simp)
  have hne : ((c.advance 1).takeWhile (· ≠ quote)).2.rest ≠ [] := by rw [hrest]; simp
  refine ⟨((c.advance 1).takeWhile (· ≠ quote)).2.advance 1, ?_, Cursor.rest_advance (a := [quote]) hrest rfl⟩
  unfold readValue
  rw [h]
  simp only [if_pos hq, if_neg hne, hraw, hd]

theorem readAttribute_eq {c : Cursor} {entry : Text × Text} {b₂ b₃ raw rest : Text} {quote : CodeUnit}
    (ended : Fault) (element : Text) (u : CodeUnit) (hn : IsName entry.1) (h₂ : IsBlank b₂) (h₃ : IsBlank b₃)
    (hq : isQuote quote) (he : Reference.Escapes Reference.Kind.all entry.2 raw) (hr : quote ∉ raw)
    (h : c.rest = entry.1 ++ (b₂ ++ unit '=' :: (b₃ ++ quote :: (raw ++ quote :: rest)))) :
    ∃ c', readAttribute ended element u c = .ok entry c' ∧ c'.rest = rest := by
  have hboundary : ∀ v ∈ (b₂ ++ unit '=' :: (b₃ ++ quote :: (raw ++ quote :: rest))).head?,
      Cursor.isNameUnit v = false := by
    intro v hv
    cases b₂ with
    | nil =>
        obtain rfl : unit '=' = v := by simpa using hv
        decide
    | cons b b₂ =>
        obtain rfl : b = v := by simpa using hv
        exact not_isNameUnit_of_isBlank (h₂ b (by simp))
  obtain ⟨hname, hrest⟩ := Cursor.name_eq h hn.2 hboundary
  have hd : c.name.2.skipBlanks.rest = unit '=' :: (b₃ ++ quote :: (raw ++ quote :: rest)) := by
    refine Cursor.rest_skipBlanks hrest h₂ (fun v hv => ?_)
    obtain rfl : unit '=' = v := by simpa using hv
    decide
  have hv : ((c.name.2.skipBlanks.advance 1).skipBlanks).rest = quote :: (raw ++ quote :: rest) := by
    refine Cursor.rest_skipBlanks (Cursor.rest_advance (a := [unit '=']) hd rfl) h₃ (fun v hv => ?_)
    obtain rfl : quote = v := by simpa using hv
    rcases eq_of_isQuote hq with rfl | rfl <;> decide
  obtain ⟨c', hvalue, hc'⟩ := readValue_eq ended entry.1 c.position hq hr (Reference.decode_of_escapes he) hv
  refine ⟨c', ?_, hc'⟩
  unfold readAttribute
  simp only [hname, if_neg hn.1, hd, List.head?_cons, if_true, hvalue]

theorem readAttributes_of_closing {c : Cursor} {u : CodeUnit} {t : Text} (ended : Fault) (element : Text)
    (found : Table) (h : c.skipBlanks.rest = u :: t) (hu : EndsTag u) :
    readAttributes ended element found c = .ok found c.skipBlanks := by
  rw [readAttributes]
  split
  · simp_all
  · next v t' h' =>
    rw [h] at h'
    cases h'
    exact if_pos hu

theorem readAttributes_of_attribute {c s : Cursor} {u : CodeUnit} {t : Text} {entry : Text × Text} (ended : Fault)
    (element : Text) (found : Table) (h : c.skipBlanks.rest = u :: t) (hu : ¬ EndsTag u)
    (ha : readAttribute ended element u c.skipBlanks = .ok entry s) :
    readAttributes ended element found c = readAttributes ended element (found.insert entry.1 entry.2) s := by
  rw [readAttributes]
  split
  · simp_all
  · next v t' h' =>
    rw [h] at h'
    cases h'
    rw [if_neg (show ¬ (u = unit '>' ∨ u = unit '/') from hu)]
    split
    · simp_all
    · next ha' =>
      rw [ha] at ha'
      cases ha'
      rfl

end Tag

namespace Table

theorem put_of_not_mem {name value : Text} {es : List (Text × Text)} (h : name ∉ es.map Prod.fst) :
    put name value es = es ++ [(name, value)] := by
  induction es with
  | nil => rfl
  | cons e es ih =>
      obtain ⟨he, hes⟩ := not_or.mp (fun m => h (List.mem_cons.mpr m))
      rw [put, if_neg (Ne.symm he), ih hes]
      rfl

/-- A new name is added at the end. -/
theorem insert_of_not_mem {t : Table} {name value : Text} (h : name ∉ t.entries.map Prod.fst) :
    t.insert name value = ⟨t.entries ++ [(name, value)]⟩ := congrArg Table.mk (put_of_not_mem h)

end Table

namespace Tag

open Source

/-- The unit after the name of a tag belongs to no name. -/
theorem head_not_isNameUnit {attributes : List (Text × Text)} {inside b t : Text} {u : CodeUnit}
    (hw : WritesAttributes attributes inside) (hb : IsBlank b) (hu : EndsTag u) :
    ∀ v ∈ (inside ++ (b ++ u :: t)).head?, Cursor.isNameUnit v = false := by
  intro v hv
  cases attributes with
  | nil =>
      obtain rfl : inside = [] := hw
      cases b with
      | nil =>
          obtain rfl : u = v := by simpa using hv
          exact hu.not_isNameUnit
      | cons x b =>
          obtain rfl : x = v := by simpa using hv
          exact not_isNameUnit_of_isBlank (hb x (by simp))
  | cons entry entries =>
      obtain ⟨t₁, t₂, ⟨b₁, _, _, _, _, hne, hb₁, _, _, _, _, _, rfl⟩, _, rfl⟩ := hw
      obtain ⟨x, b₁, rfl⟩ := List.exists_cons_of_ne_nil hne
      obtain rfl : x = v := by simpa using hv
      exact not_isNameUnit_of_isBlank (hb₁ x (by simp))

/-- Written attributes are read back in order. -/
theorem readAttributes_eq {attributes : List (Text × Text)} {inside b t : Text} {u : CodeUnit} (ended : Fault)
    (element : Text) (hn : ∀ e ∈ attributes, IsName e.1) (hw : WritesAttributes attributes inside)
    (hb : IsBlank b) (hu : EndsTag u) {found : List (Text × Text)}
    (hnodup : ((found ++ attributes).map Prod.fst).Nodup) {c : Cursor}
    (h : c.rest = inside ++ (b ++ u :: t)) :
    ∃ c', readAttributes ended element ⟨found⟩ c = .ok ⟨found ++ attributes⟩ c' ∧ c'.rest = u :: t := by
  induction attributes generalizing inside found c with
  | nil =>
      obtain rfl : inside = [] := hw
      have hrest : c.skipBlanks.rest = u :: t := by
        refine Cursor.rest_skipBlanks h hb (fun v hv => ?_)
        obtain rfl : u = v := by simpa using hv
        exact hu.not_isBlank
      exact ⟨c.skipBlanks, by rw [readAttributes_of_closing ended element _ hrest hu, List.append_nil], hrest⟩
  | cons entry entries ih =>
      obtain ⟨t₁, t₂, ⟨b₁, b₂, b₃, raw, quote, hne, hb₁, hb₂, hb₃, hq, he, hr, rfl⟩, hw', rfl⟩ := hw
      have hname := hn entry (by simp)
      obtain ⟨x, xs, hx⟩ := List.exists_cons_of_ne_nil hname.1
      have hxname : Cursor.isNameUnit x := hname.2 x (by simp [hx])
      have hrest : c.skipBlanks.rest =
          entry.1 ++ (b₂ ++ unit '=' :: (b₃ ++ quote :: (raw ++ quote :: (t₂ ++ (b ++ u :: t))))) := by
        refine Cursor.rest_skipBlanks (a := b₁) ?_ hb₁ (fun v hv => ?_)
        · rw [h]
          simp
        · rw [hx] at hv
          obtain rfl : x = v := by simpa using hv
          exact not_isBlank_of_isNameUnit hxname
      obtain ⟨s, hattribute, hs⟩ := readAttribute_eq ended element x hname hb₂ hb₃ hq he hr hrest
      have hx' : ¬ EndsTag x := by
        intro hends
        rw [hends.not_isNameUnit] at hxname
        cases hxname
      have hfresh : entry.1 ∉ found.map Prod.fst := by
        rw [List.map_append, List.map_cons] at hnodup
        intro hm
        exact (List.nodup_append.mp hnodup).2.2 _ hm _ (by simp) rfl
      obtain ⟨c', hread, hc'⟩ := ih (fun e he => hn e (List.mem_cons_of_mem _ he)) hw'
        (by rwa [List.append_assoc] : ((found ++ [entry] ++ entries).map Prod.fst).Nodup) hs
      refine ⟨c', ?_, hc'⟩
      rw [hx] at hrest
      rw [readAttributes_of_attribute ended element _ hrest hx' hattribute, Table.insert_of_not_mem hfresh]
      simpa using hread

/-! ### Whole tags -/

/-- What ends a tag that is self-closing or not. -/
def bracket (selfClosing : Bool) : Text := if selfClosing then lit "/>" else lit ">"

theorem readBracket_eq {c : Cursor} {rest : Text} (element : Text) (selfClosing : Bool)
    (h : c.rest = bracket selfClosing ++ rest) :
    ∃ c', readBracket element c = .ok selfClosing c' ∧ c'.rest = rest := by
  cases selfClosing with
  | true =>
      have h' : c.rest = [unit '/', unit '>'] ++ rest := h
      refine ⟨c.advance 2, ?_, Cursor.rest_advance h' rfl⟩
      unfold readBracket
      rw [h']
      rfl
  | false =>
      have h' : c.rest = [unit '>'] ++ rest := h
      refine ⟨c.advance 1, ?_, Cursor.rest_advance h' rfl⟩
      unfold readBracket
      rw [h']
      rfl

/-- A written opening tag is read back. -/
theorem readOpening_eq {written : Text} {attributes : List (Text × Text)} {inside b rest : Text} (ended : Fault)
    (selfClosing : Bool) (hn : IsName written) (ha : AttributesOk attributes)
    (hw : WritesAttributes attributes inside) (hb : IsBlank b) {c : Cursor}
    (h : c.rest = unit '<' :: (written ++ (inside ++ (b ++ (bracket selfClosing ++ rest))))) :
    ∃ c', readOpening ended c = .ok ⟨written, ⟨attributes⟩, selfClosing⟩ c' ∧ c'.rest = rest := by
  obtain ⟨u, t, hu, ht⟩ : ∃ u t, EndsTag u ∧ bracket selfClosing ++ rest = u :: t := by
    cases selfClosing with
    | true => exact ⟨unit '/', unit '>' :: rest, .inr rfl, rfl⟩
    | false => exact ⟨unit '>', rest, .inl rfl, rfl⟩
  rw [ht] at h
  have h₁ : (c.advance 1).rest = written ++ (inside ++ (b ++ u :: t)) := Cursor.rest_advance (a := [unit '<']) h rfl
  obtain ⟨hname, hrest⟩ := Cursor.name_eq h₁ hn.2 (head_not_isNameUnit hw hb hu)
  obtain ⟨s, hattributes, hs⟩ := readAttributes_eq ended written ha.isName hw hb hu
    (by simpa using ha.nodup : (([] ++ attributes).map Prod.fst).Nodup) hrest
  obtain ⟨c', hbracket, hc'⟩ := readBracket_eq written selfClosing (hs.trans ht.symm)
  refine ⟨c', ?_, hc'⟩
  simp only [readOpening, hname, if_neg hn.1, Table.empty, hattributes, hbracket, List.nil_append]

/-- A written closing tag is read back. -/
theorem readClosing_eq {written b rest : Text} (ended : Fault) (hn : IsName written) (hb : IsBlank b) {c : Cursor}
    (h : c.rest = lit "</" ++ (written ++ (b ++ (lit ">" ++ rest)))) :
    ∃ c', readClosing ended c = .ok written c' ∧ c'.rest = rest := by
  have h₁ : (c.advance 2).rest = written ++ (b ++ unit '>' :: rest) := Cursor.rest_advance h rfl
  have hends : EndsTag (unit '>') := .inl rfl
  obtain ⟨hname, hrest⟩ := Cursor.name_eq h₁ hn.2
    (head_not_isNameUnit (show WritesAttributes [] [] from rfl) hb hends)
  have hskip : (c.advance 2).name.2.skipBlanks.rest = unit '>' :: rest := by
    refine Cursor.rest_skipBlanks hrest hb (fun v hv => ?_)
    obtain rfl : unit '>' = v := by simpa using hv
    decide
  refine ⟨(c.advance 2).name.2.skipBlanks.advance 1, ?_, Cursor.rest_advance (a := [unit '>']) hskip rfl⟩
  simp only [readClosing, hskip, hname, if_true]

end Tag
end Pictogram
