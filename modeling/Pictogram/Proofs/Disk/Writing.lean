import Mathlib.Data.List.Induction
import Pictogram.Disk.Basic

/-! # What writing changes on a disk

Making folders puts folders where nothing was and leaves all else as it is (`Disk.AddsFolders`), also
when it fails halfway.  Writing a file changes one place, the one that its path text leads to from the
root.

The place of an absolute text is found by the text alone (`Path.follow`).  For a path whose names are
plain ones (`Path.IsProper`) its text leads back to it, and opening the file succeeds exactly if no place
on the way is a file and the place itself is no folder (`Disk.CanWrite`). -/

namespace Pictogram

/-! ### Path texts -/

namespace Path

/-- A name of a place, not a step that stays or goes up. -/
def IsName (name : Text) : Prop := name ≠ [] ∧ name ≠ lit "." ∧ name ≠ lit ".." ∧ unit '/' ∉ name

instance (name : Text) : Decidable (IsName name) := inferInstanceAs (Decidable (_ ∧ _))

/-- A path of plain names. -/
def IsProper (p : Path) : Prop := ∀ name ∈ p, IsName name

instance (p : Path) : Decidable p.IsProper := inferInstanceAs (Decidable (∀ name ∈ p, IsName name))

variable {p q here : Path} {name : Text}

@[simp] theorem isProper_nil : IsProper [] := by simp [IsProper]

@[simp] theorem isProper_append : IsProper (p ++ q) ↔ p.IsProper ∧ q.IsProper := by
  simp [IsProper, or_imp, forall_and]

@[simp] theorem isProper_cons : IsProper (name :: p) ↔ IsName name ∧ p.IsProper := by simp [IsProper]

@[simp] theorem step_nil (p : Path) : p.step [] = p := by simp [step]

theorem step_of_isName (h : IsName name) (p : Path) : p.step name = p ++ [name] := by
  obtain ⟨hnil, hdot, hdots, -⟩ := h
  simp [step, hnil, hdot, hdots]

theorem length_step_le (p : Path) (name : Text) : (p.step name).length ≤ p.length + 1 := by
  unfold step
  split
  · omega
  · split
    · rw [List.length_dropLast]
      omega
    · simp

theorem IsProper.step (h : p.IsProper) (hname : unit '/' ∉ name) : (p.step name).IsProper := by
  unfold Path.step
  split
  · exact h
  · rename_i hstay
    obtain ⟨hnil, hdot⟩ := not_or.mp hstay
    split
    · intro n hn
      exact h n ((List.dropLast_sublist p).subset hn)
    · rename_i hdots
      exact isProper_append.mpr ⟨h, isProper_cons.mpr ⟨⟨hnil, hdot, hdots, hname⟩, isProper_nil⟩⟩

theorem foldl_step_of_isProper (h : q.IsProper) (p : Path) : q.foldl Path.step p = p ++ q := by
  induction q generalizing p with
  | nil => simp
  | cons name q ih =>
      obtain ⟨hname, hq⟩ := isProper_cons.mp h
      rw [List.foldl_cons, step_of_isName hname, ih hq, List.append_assoc]
      rfl

/-- Empty names at the end lead nowhere. -/
theorem foldl_step_trim (names : List Text) (p : Path) :
    (names.reverse.dropWhile (· = [])).reverse.foldl Path.step p = names.foldl Path.step p := by
  induction names using List.reverseRecOn with
  | nil => rfl
  | append_singleton names name ih =>
      by_cases hname : name = []
      · simp [hname, ih]
      · simp [hname]

/-! ### Names in a text -/

theorem not_mem_of_mem_names {t : Text} (h : name ∈ names t) : unit '/' ∉ name := by
  unfold names at h
  induction t generalizing name with
  | nil =>
      obtain rfl : name = [] := by simpa [Text.splitOn] using h
      simp
  | cons u t ih =>
      unfold Text.splitOn at h
      split at h
      · rcases List.mem_cons.mp h with rfl | h
        · simp
        · exact ih h
      · rename_i hu
        have hu : unit '/' ≠ u := by
          rintro rfl
          exact hu (by decide)
        split at h
        · obtain rfl := List.mem_singleton.mp h
          simp [hu]
        · rename_i piece pieces hsplit
          have hpiece : unit '/' ∉ piece := ih (by simp [hsplit])
          rcases List.mem_cons.mp h with rfl | h
          · simp [hu, hpiece]
          · exact ih (by simp [hsplit, h])

theorem IsProper.follow (h : p.IsProper) (t : Text) : (p.follow t).IsProper := by
  have hfold (ns : List Text) (hns : ∀ n ∈ ns, unit '/' ∉ n) (q : Path) (hq : q.IsProper) :
      (ns.foldl Path.step q).IsProper := by
    induction ns generalizing q with
    | nil => exact hq
    | cons n ns ih =>
        rw [List.forall_mem_cons] at hns
        exact ih hns.2 _ (hq.step hns.1)
  apply hfold _ (fun n hn => not_mem_of_mem_names hn)
  unfold startOf
  split
  · exact isProper_nil
  · exact h

theorem splitOn_append_slash {front rest : Text} (h : unit '/' ∉ front) :
    Text.splitOn isSlash (front ++ unit '/' :: rest) = front :: Text.splitOn isSlash rest := by
  induction front with
  | nil => simp [Text.splitOn, isSlash]
  | cons u front ih =>
      simp only [List.mem_cons, not_or] at h
      have hu : isSlash u = false := by simp [isSlash, Ne.symm h.1]
      simp [Text.splitOn, hu, ih h.2]

theorem splitOn_of_not_mem {t : Text} (h : unit '/' ∉ t) : Text.splitOn isSlash t = [t] := by
  apply Text.splitOn_of_none
  intro u hu
  simp only [isSlash, decide_eq_false_iff_not]
  rintro rfl
  exact h hu

@[simp] theorem join_singleton (name : Text) : join [name] = name := by simp [join]

theorem join_cons_cons (name next : Text) (p : Path) :
    join (name :: next :: p) = name ++ unit '/' :: join (next :: p) := by
  have hslash : lit "/" = [unit '/'] := by decide
  simp [join, List.intercalate_cons_cons, hslash]

theorem names_join (h : p.IsProper) (hp : p ≠ []) : names (join p) = p := by
  induction p with
  | nil => exact absurd rfl hp
  | cons name p ih =>
      obtain ⟨hname, hproper⟩ := isProper_cons.mp h
      cases p with
      | nil => rw [join_singleton, names, splitOn_of_not_mem hname.2.2.2]
      | cons next p =>
          rw [join_cons_cons, names, splitOn_append_slash hname.2.2.2]
          exact congrArg _ (ih hproper (List.cons_ne_nil next p))

@[simp] theorem isAbsolute_text (p : Path) : isAbsolute p.text = true := by simp [isAbsolute, text]

@[simp] theorem startOf_text (here p : Path) : here.startOf p.text = [] := by simp [startOf]

theorem text_ne_nil (p : Path) : p.text ≠ [] := List.cons_ne_nil _ _

theorem names_text (p : Path) : names p.text = [] :: names (join p) := by
  simp [names, text, Text.splitOn, isSlash]

@[simp] theorem names_text_nil : names (text []) = [[], []] := by decide

theorem names_text_of_isProper (h : p.IsProper) (hp : p ≠ []) : names p.text = [] :: p := by
  rw [names_text, names_join h hp]

/-- The text of a path of plain names leads to it. -/
theorem follow_text (h : p.IsProper) (here : Path) : here.follow p.text = p := by
  unfold follow
  rw [startOf_text]
  by_cases hp : p = []
  · subst hp
    decide
  · rw [names_text_of_isProper h hp, List.foldl_cons, step_nil, foldl_step_of_isProper h, List.nil_append]

theorem join_append (hp : p ≠ []) (hq : q ≠ []) : join (p ++ q) = join p ++ unit '/' :: join q := by
  induction p with
  | nil => exact absurd rfl hp
  | cons first p ih =>
      cases p with
      | nil =>
          obtain ⟨name, q, rfl⟩ := List.exists_cons_of_ne_nil hq
          rw [List.singleton_append, join_cons_cons, join_singleton]
      | cons next p =>
          rw [List.cons_append, List.cons_append, join_cons_cons, join_cons_cons, ← List.cons_append,
            ih (List.cons_ne_nil next p)]
          simp

theorem text_append (hp : p ≠ []) (hq : q ≠ []) : text (p ++ q) = p.text ++ unit '/' :: join q := by
  rw [text, text, join_append hp hq, List.cons_append]

theorem text_append_singleton (hp : p ≠ []) (name : Text) : text (p ++ [name]) = p.text ++ unit '/' :: name := by
  rw [text_append hp (List.cons_ne_nil name []), join_singleton]

/-- The text in front of the last name is the text of the folder. -/
theorem parentText_text (hp : p.IsProper) (hname : IsName name) : parentText (text (p ++ [name])) = p.text := by
  have hfirst : ∀ u ∈ name, isSlash u = false := by
    intro u hu
    have hne : u ≠ unit '/' := fun h => hname.2.2.2 (h ▸ hu)
    simp [isSlash, hne]
  have htrim (before : Text) : ((name.reverse ++ unit '/' :: before).dropWhile isSlash).dropWhile (! isSlash ·) =
      unit '/' :: before := by
    obtain ⟨rest, last, rfl⟩ := List.eq_nil_or_concat name |>.resolve_left hname.1
    have hlast : isSlash last = false := hfirst last (by simp)
    have hkeep : List.dropWhile isSlash ((rest ++ [last]).reverse ++ unit '/' :: before) =
        (rest ++ [last]).reverse ++ unit '/' :: before := by
      simp [hlast]
    rw [List.concat_eq_append, hkeep, List.dropWhile_append_of_pos]
    · simp [isSlash]
    · intro u hu
      have hmem : u ∈ rest ++ [last] := List.mem_reverse.mp hu
      simp [hfirst u (by rwa [List.concat_eq_append])]
  unfold parentText
  by_cases hnil : p = []
  · subst hnil
    have hreverse : (text ([] ++ [name])).reverse = name.reverse ++ unit '/' :: [] := by simp [text]
    simp only [hreverse, htrim, List.drop_one, List.tail_cons, isAbsolute_text, if_true]
    decide
  · have hreverse : (text (p ++ [name])).reverse = name.reverse ++ unit '/' :: p.text.reverse := by
      rw [text_append_singleton hnil]
      simp
    simp only [hreverse, htrim, List.drop_one, List.tail_cons]
    have hslash : p.text.reverse ≠ lit "/" := by
      intro h
      have htext : p.text = lit "/" := by
        rw [← List.reverse_reverse p.text, h]
        decide
      have hnames := names_text_of_isProper hp hnil
      rw [htext, show names (lit "/") = [[], []] by decide] at hnames
      obtain rfl : p = [[]] := (List.cons.inj hnames).2.symm
      exact (hp [] (by simp)).1 rfl
    split
    · rename_i h
      exact absurd (List.reverse_eq_nil_iff.mp h) (text_ne_nil p)
    · rw [if_neg hslash, List.reverse_reverse]

end Path

namespace Disk
variable {d d' : Disk} {p q here : Path} {names : List Text}

/-! ### Folders -/

@[simp] theorem get?_nil (d : Disk) : d.get? [] = some .folder := by simp [get?]

theorem lookup_put (p q : Path) (e : Entry) (entries : List (Path × Entry)) :
    (put p e entries).lookup q = if q = p then some e else entries.lookup q := by
  induction entries with
  | nil =>
      by_cases h : q = p
      · simp [put, h]
      · have hbeq : (q == p) = false := by simp [h]
        simp [put, h, hbeq, List.lookup_cons]
  | cons x entries ih =>
      obtain ⟨k, entry⟩ := x
      unfold put
      by_cases hk : k = p
      · by_cases h : q = p
        · simp [hk, h]
        · have hbeq : (q == p) = false := by simp [h]
          simp [hk, h, hbeq, List.lookup_cons]
      · rw [if_neg hk]
        by_cases hq : q = k
        · have hne : q ≠ p := fun h => hk (hq ▸ h)
          simp [hq, hk]
        · have hbeq : (q == k) = false := by simp [hq]
          simp only [List.lookup_cons, hbeq, ih]

theorem get?_insert (d : Disk) (p q : Path) (e : Entry) :
    (d.insert p e).get? q = if q ≠ [] ∧ q = p then some e else d.get? q := by
  unfold get? insert
  by_cases hq : q = []
  · simp [hq]
  · simp [hq, lookup_put]

/-- The later disk has folders where the earlier one had nothing, and is the same otherwise. -/
def AddsFolders (d d' : Disk) : Prop :=
  d'.working = d.working ∧ ∀ p, d'.get? p = d.get? p ∨ d.get? p = none ∧ d'.get? p = some .folder

theorem AddsFolders.refl (d : Disk) : AddsFolders d d := ⟨rfl, fun _ => .inl rfl⟩

theorem AddsFolders.trans {d'' : Disk} (h : AddsFolders d d') (h' : AddsFolders d' d'') : AddsFolders d d'' := by
  refine ⟨h'.1.trans h.1, ?_⟩
  intro p
  rcases h.2 p with hp | ⟨hp, hfolder⟩
  · rcases h'.2 p with hp' | ⟨hp', hfolder'⟩
    · exact .inl (hp'.trans hp)
    · exact .inr ⟨hp ▸ hp', hfolder'⟩
  · rcases h'.2 p with hp' | ⟨hp', -⟩
    · exact .inr ⟨hp, hp'.trans hfolder⟩
    · rw [hfolder] at hp'
      cases hp'

/-- Files are not touched by adding folders. -/
theorem AddsFolders.file_iff (h : AddsFolders d d') (p : Path) (content : Bytes) :
    d'.get? p = some (.file content) ↔ d.get? p = some (.file content) := by
  rcases h.2 p with hp | ⟨hp, hfolder⟩
  · rw [hp]
  · simp [hp, hfolder]

theorem AddsFolders.folder (h : AddsFolders d d') (hp : d.get? p = some .folder) : d'.get? p = some .folder := by
  rcases h.2 p with hsame | ⟨-, hfolder⟩
  · exact hsame.trans hp
  · exact hfolder

theorem addsFolders_insert (h : d.get? p = none) : AddsFolders d (d.insert p .folder) := by
  refine ⟨rfl, ?_⟩
  intro q
  rw [get?_insert]
  split
  · rename_i hq
    obtain ⟨-, rfl⟩ := hq
    exact .inr ⟨h, rfl⟩
  · exact .inl rfl

theorem addsFolders_makeWalk (d : Disk) (here : Path) (names : List Text) :
    AddsFolders d (d.makeWalk here names).1 := by
  fun_induction makeWalk d here names with
  | case1 d here => exact .refl d
  | case2 d here name names hnone ih => exact (addsFolders_insert hnone).trans ih
  | case3 d here name names hfolder ih => exact ih
  | case4 d here name names content hfile => exact .refl d

theorem addsFolders_makeFolder (d : Disk) (t : Text) : AddsFolders d (d.makeFolder t).1 :=
  addsFolders_makeWalk d _ _

/-! ### The place that is written -/

theorem eq_of_walk (h : d.walk here names = .ok p) : p = names.foldl Path.step here := by
  fun_induction walk d here names with
  | case1 here => exact (Except.ok.inj h).symm
  | case2 => cases h
  | case3 => cases h
  | case4 here name names hfolder ih => exact ih h

/-- A file to write at an absolute path text is at the place that the text leads to, which is no folder. -/
theorem eq_of_fileToWrite {t : Text} (ht : Path.isAbsolute t = true) (h : d.fileToWrite t = .ok p) :
    p = Path.follow [] t ∧ d.get? p ≠ some .folder := by
  have hstart (here : Path) : here.startOf t = [] := by simp [Path.startOf, ht]
  unfold fileToWrite at h
  split at h
  · cases h
  · simp only [hstart, bind, Except.bind] at h
    split at h
    · cases h
    · rename_i q hwalk
      have hq : q = Path.follow [] t := by
        rw [eq_of_walk hwalk, Path.foldl_step_trim, Path.follow, hstart]
      split at h
      · cases h
      · rename_i hfolder
        split at h
        · cases h
        · obtain rfl := Except.ok.inj h
          exact ⟨hq, hfolder⟩

/-! ### When a file can be written -/

/-- The places on the way to a path, itself apart, are folders. -/
def Leads (d : Disk) (here : Path) (names : List Text) : Prop :=
  ∀ front, front <+: names → front ≠ names → d.get? (here ++ front) = some .folder

@[simp] theorem leads_nil (d : Disk) (here : Path) : d.Leads here [] := by
  intro front hfront hne
  exact absurd (List.prefix_nil.mp hfront) hne

theorem leads_cons {name : Text} :
    d.Leads here (name :: names) ↔ d.get? here = some .folder ∧ d.Leads (here ++ [name]) names := by
  constructor
  · intro h
    refine ⟨by simpa using h [] List.nil_prefix (List.cons_ne_nil _ _).symm, ?_⟩
    intro front hfront hne
    have := h (name :: front) ((List.prefix_cons_inj name).mpr hfront) (fun he => hne (List.cons.inj he).2)
    simpa using this
  · rintro ⟨hhere, h⟩ front hfront hne
    cases front with
    | nil => simpa using hhere
    | cons n front =>
        obtain ⟨rfl, hfront'⟩ := List.cons_prefix_cons.mp hfront
        have := h front hfront' (fun he => hne (congrArg _ he))
        simpa using this

theorem walk_eq_ok_iff (hnames : Path.IsProper names) :
    d.walk here names = .ok p ↔ p = here ++ names ∧ d.Leads here names := by
  induction names generalizing here with
  | nil => simp [walk, eq_comm]
  | cons name names ih =>
      obtain ⟨hname, hnames⟩ := Path.isProper_cons.mp hnames
      rw [leads_cons, walk, Path.step_of_isName hname]
      cases hget : d.get? here with
      | none => simp
      | some e =>
          cases e with
          | file content => simp
          | folder => simp [ih hnames]

theorem walk_nil_cons (d : Disk) (names : List Text) : d.walk [] ([] :: names) = d.walk [] names := by
  simp [walk]

theorem fileToWrite_text_iff (hp : p.IsProper) :
    d.fileToWrite p.text = .ok q ↔ q = p ∧ d.Leads [] p ∧ d.get? p ≠ some .folder := by
  unfold fileToWrite
  rw [if_neg (Path.text_ne_nil p), Path.startOf_text]
  by_cases hnil : p = []
  · subst hnil
    simp [walk, bind, Except.bind]
  · have hlast : (p.getLast hnil) ≠ [] := (hp _ (List.getLast_mem hnil)).1
    rw [Path.names_text_of_isProper hp hnil]
    have htrim : (([] :: p).reverse.dropWhile (· = ([] : Text))).reverse = [] :: p := by
      obtain ⟨front, last, rfl⟩ := (List.eq_nil_or_concat p).resolve_left hnil
      have hlast : last ≠ [] := (hp last (by simp)).1
      simp [List.concat_eq_append, hlast]
    have hopen : ([] :: p).getLast? ≠ some ([] : Text) := by
      rw [List.getLast?_cons_of_ne_nil hnil, List.getLast?_eq_some_getLast hnil]
      simpa using hlast
    simp only [htrim, walk_nil_cons, bind, Except.bind]
    cases hwalk : d.walk [] p with
    | error f =>
        have hleads : ¬ d.Leads [] p := by
          intro hleads
          have := (walk_eq_ok_iff (p := p) hp).mpr ⟨(List.nil_append p).symm, hleads⟩
          rw [hwalk] at this
          cases this
        simp [hleads]
    | ok r =>
        obtain ⟨hr, hleads⟩ := (walk_eq_ok_iff hp).mp hwalk
        obtain rfl : r = p := hr
        cases hget : d.get? r with
        | none => simp [hopen, hleads, hget, eq_comm]
        | some e => cases e <;> simp [hopen, hleads, hget, eq_comm]

theorem has_text_iff (hp : p.IsProper) : d.has p.text = true ↔ d.Leads [] p ∧ (d.get? p).isSome := by
  unfold has find
  rw [if_neg (Path.text_ne_nil p), Path.startOf_text]
  by_cases hnil : p = []
  · subst hnil
    simp [walk, bind, Except.bind, Except.isOk, Except.toBool]
  · simp only [Path.names_text_of_isProper hp hnil, walk_nil_cons, bind, Except.bind]
    cases hwalk : d.walk [] p with
    | error f =>
        have hleads : ¬ d.Leads [] p := by
          intro hleads
          have hok : d.walk [] p = .ok p := (walk_eq_ok_iff hp).mpr ⟨rfl, hleads⟩
          rw [hwalk] at hok
          cases hok
        simp [hleads, Except.isOk, Except.toBool]
    | ok r =>
        obtain ⟨hr, hleads⟩ := (walk_eq_ok_iff hp).mp hwalk
        obtain rfl : r = p := hr
        cases hget : d.get? r <;> simp [hleads, hget, Except.isOk, Except.toBool]

/-- What lies deeper than a walk can go is not touched. -/
theorem get?_makeWalk_of_length_lt (h : here.length + names.length < q.length) :
    (d.makeWalk here names).1.get? q = d.get? q := by
  fun_induction makeWalk d here names with
  | case1 d here => rfl
  | case2 d here name names hnone ih =>
      have hstep := Path.length_step_le here name
      rw [List.length_cons] at h
      rw [ih (by omega), get?_insert, if_neg]
      rintro ⟨-, rfl⟩
      omega
  | case3 d here name names hfolder ih =>
      have hstep := Path.length_step_le here name
      rw [List.length_cons] at h
      exact ih (by omega)
  | case4 => rfl

/-- Making folders succeeds if none of them is a file, and then they are all there. -/
theorem makeWalk_eq_none_iff (hnames : Path.IsProper names) :
    (d.makeWalk here names).2 = none ↔
      ∀ front, front <+: names → front ≠ [] → ∀ content, d.get? (here ++ front) ≠ some (.file content) := by
  induction names generalizing d here with
  | nil =>
      simp only [makeWalk, true_iff]
      intro front hfront hne
      exact absurd (List.prefix_nil.mp hfront) hne
  | cons name names ih =>
      obtain ⟨hname, hnames⟩ := Path.isProper_cons.mp hnames
      have hcons : (∀ front, front <+: name :: names → front ≠ [] →
            ∀ content, d.get? (here ++ front) ≠ some (.file content)) ↔
          (∀ content, d.get? (here ++ [name]) ≠ some (.file content)) ∧
          ∀ front, front <+: names → front ≠ [] →
            ∀ content, d.get? (here ++ [name] ++ front) ≠ some (.file content) := by
        constructor
        · intro h
          refine ⟨h [name] (by simp) (List.cons_ne_nil _ _), ?_⟩
          intro front hfront hne
          have := h (name :: front) ((List.prefix_cons_inj name).mpr hfront) (List.cons_ne_nil _ _)
          simpa using this
        · rintro ⟨hfirst, h⟩ front hfront hne
          cases front with
          | nil => exact absurd rfl hne
          | cons n front =>
              obtain ⟨rfl, hfront'⟩ := List.cons_prefix_cons.mp hfront
              cases front with
              | nil => exact hfirst
              | cons m front =>
                  have := h (m :: front) hfront' (List.cons_ne_nil _ _)
                  simpa using this
      rw [hcons, makeWalk, Path.step_of_isName hname]
      cases hget : d.get? (here ++ [name]) with
      | none =>
          have hdeep (front : List Text) (hne : front ≠ []) :
              (d.insert (here ++ [name]) .folder).get? (here ++ [name] ++ front) =
                d.get? (here ++ [name] ++ front) := by
            rw [get?_insert, if_neg]
            simp [hne]
          simp only [ih hnames, reduceCtorEq, ne_eq, not_false_eq_true, implies_true, true_and]
          constructor
          · intro h front hfront hne content
            rw [← hdeep front hne]
            exact h front hfront hne content
          · intro h front hfront hne content
            rw [hdeep front hne]
            exact h front hfront hne content
      | some e =>
          cases e with
          | folder => simp [ih hnames]
          | file content => simp

theorem leads_makeWalk (hnames : Path.IsProper names) (hhere : d.get? here = some .folder)
    (h : (d.makeWalk here names).2 = none) (name : Text) : (d.makeWalk here names).1.Leads here (names ++ [name]) := by
  induction names generalizing d here with
  | nil =>
      rw [List.nil_append, leads_cons]
      exact ⟨hhere, leads_nil _ _⟩
  | cons n names ih =>
      obtain ⟨hname, hnames⟩ := Path.isProper_cons.mp hnames
      rw [List.cons_append, leads_cons]
      refine ⟨(addsFolders_makeWalk d here (n :: names)).folder hhere, ?_⟩
      rw [makeWalk, Path.step_of_isName hname] at h ⊢
      cases hget : d.get? (here ++ [n]) with
      | none =>
          simp only [hget] at h ⊢
          exact ih hnames (by simp [get?_insert]) h
      | some e =>
          cases e with
          | folder =>
              simp only [hget] at h ⊢
              exact ih hnames hget h
          | file content => simp [hget] at h

theorem makeWalk_names_text (hp : p.IsProper) : d.makeWalk [] (Path.names p.text) = d.makeWalk [] p := by
  by_cases hnil : p = []
  · subst hnil
    simp [makeWalk]
  · rw [Path.names_text_of_isProper hp hnil]
    simp [makeWalk]

theorem makeFolder_text_eq_none_iff (hp : p.IsProper) :
    (d.makeFolder p.text).2 = none ↔ ∀ front, front <+: p → ∀ content, d.get? front ≠ some (.file content) := by
  have hmake : (d.makeFolder p.text).2 = none ↔ (d.makeWalk [] p).2 = none := by
    simp [makeFolder, makeWalk_names_text hp]
  rw [hmake, makeWalk_eq_none_iff hp]
  constructor
  · intro h front hfront content
    by_cases hnil : front = []
    · simp [hnil]
    · exact h front hfront hnil content
  · intro h front hfront _ content
    exact h front hfront content

/-- A place that can be written: nothing on the way to it is a file, and it is no folder. -/
def CanWrite (d : Disk) (p : Path) : Prop :=
  d.get? p ≠ some .folder ∧ ∀ front, front <+: p → front ≠ p → ∀ content, d.get? front ≠ some (.file content)

/-- The places on the way to a file are its folder and those on the way to that. -/
theorem prefix_and_ne_concat_iff (p : Path) (name : Text) {front : Path} :
    front <+: p ++ [name] ∧ front ≠ p ++ [name] ↔ front <+: p := by
  constructor
  · rintro ⟨hfront, hne⟩
    exact (List.prefix_concat_iff.mp hfront).resolve_left hne
  · intro hfront
    refine ⟨hfront.trans (List.prefix_append p [name]), ?_⟩
    rintro rfl
    have hlength := hfront.length_le
    rw [List.length_append, List.length_singleton] at hlength
    omega

theorem leads_concat {name : Text} :
    d.Leads [] (p ++ [name]) ↔ ∀ front, front <+: p → d.get? front = some .folder := by
  simp only [Leads, ← prefix_and_ne_concat_iff p name, and_imp, List.nil_append]

theorem canWrite_concat {name : Text} :
    d.CanWrite (p ++ [name]) ↔
      d.get? (p ++ [name]) ≠ some .folder ∧
        ∀ front, front <+: p → ∀ content, d.get? front ≠ some (.file content) := by
  simp only [CanWrite, ← prefix_and_ne_concat_iff p name, and_imp]

/-- Once its folder is made, a file can be written as soon as it is no folder itself. -/
theorem fileToWrite_makeFolder {name : Text} (hp : Path.IsProper (p ++ [name]))
    (h : (d.makeFolder p.text).2 = none) :
    (d.makeFolder p.text).1.fileToWrite (Path.text (p ++ [name])) = .ok q ↔
      q = p ++ [name] ∧ d.get? (p ++ [name]) ≠ some .folder := by
  have hproper := (Path.isProper_append.mp hp).1
  have hmake : (d.makeFolder p.text).1 = (d.makeWalk [] p).1 := by simp [makeFolder, makeWalk_names_text hproper]
  have hnone : (d.makeWalk [] p).2 = none := by
    simpa [makeFolder, makeWalk_names_text hproper] using h
  have hleads := leads_makeWalk hproper (get?_nil d) hnone name
  have hsame : (d.makeWalk [] p).1.get? (p ++ [name]) = d.get? (p ++ [name]) := get?_makeWalk_of_length_lt (by simp)
  rw [hmake, fileToWrite_text_iff hp, hsame]
  simp [hleads]

end Disk
end Pictogram
