import Dataflow.Operator.Basic
import Dataflow.Proofs.Formula.Tree
import Dataflow.Proofs.Schema.Legible

/-!
# Legible operators

The text of an operator tells its name, its type and its parameters, identities of columns aside, if
the names in it are plain, no quotation mark stands in a quoted text and its formulas are clear
(`Operator.same_of_text_eq`). The parameters that are lists of things have texts that are lists of
texts, so that it is enough to tell the texts of the things.
-/

namespace Dataflow

open Text

variable {place : Nat → String → Nat}

/-- Lists of related things are related one by one. -/
theorem Operation.pairwise_of_forall₂ {α : Type} {related : α → α → Bool} {as bs : List α}
    (h : List.Forall₂ (fun a b => related a b = true) as bs) : pairwise related as bs = true := by
  rw [pairwise, Bool.and_eq_true, beq_iff_eq, List.all_eq_true]
  exact ⟨h.length_eq, fun p hp => List.forall₂_zip h hp⟩

/-- A list without an end mark, each thing of which is ended by a comma or by the end of all. -/
theorem Text.Readable.commaList {α : Type} {text : α → String} {ok : α → Prop}
    {follow : List Char → Prop} {same : α → α → Prop} (h : Readable text ok follow same)
    (hsep : ∀ r, follow (',' :: r)) (hend : follow [])
    (hnonempty : ∀ a, ok a → (text a).toList ≠ [])
    {as bs : List α} (has : ∀ a ∈ as, ok a) (hbs : ∀ b ∈ bs, ok b)
    (heq : Dataflow.commaList (as.map text) = Dataflow.commaList (bs.map text)) :
    List.Forall₂ same as bs :=
  h.join_whole ", " (fun r => hsep _) hend (by decide) hnonempty has hbs heq

/-- A list does not begin with a character its things do not begin with. -/
theorem commaList_ne_cons {α : Type} {text : α → String} {as : List α} {c : Char}
    (h : ∀ a ∈ as, ∀ r s, (text a).toList ++ r ≠ c :: s) (r : List Char) :
    (commaList (as.map text)).toList ≠ c :: r := by
  intro heq
  cases as with
  | nil => simp [commaList, Text.join] at heq
  | cons a as =>
    cases as with
    | nil => exact h a (by simp) [] r (by simpa [commaList, Text.join] using heq)
    | cons b as =>
      rw [commaList, List.map_cons, join_cons (by simp), String.toList_append,
        String.toList_append, List.append_assoc] at heq
      exact h a (by simp) _ r heq

/-! ## Loads -/

/-- Whether a key can be told from a list of keys. -/
def KeyTable.isListed (key : String) : Bool :=
  !key.isEmpty && key.toList.all fun c => c != ',' && c != ']'

/-- Whether all keys of a table can be told from its text. -/
def KeyTable.legible (table : KeyTable) : Bool := table.all fun entry => entry.2.all isListed

namespace KeyTable

/-- The text of one column and its keys. -/
def entryText (entry : Nat × List String) : String :=
  s!"${entry.1}[" ++ Text.join "," entry.2 ++ "]"

theorem entryText_toList (entry : Nat × List String) (r : List Char) :
    (entryText entry).toList ++ r =
      '$' :: (entry.1.repr.toList ++ '[' :: ((Text.join "," entry.2).toList ++ ']' :: r)) := by
  simp [entryText, toString]

theorem exists_of_isListed {key : String} (h : isListed key = true) :
    ∃ c rest, key.toList = c :: rest ∧ (c != ',' && c != ']') = true := by
  simp only [isListed, Bool.and_eq_true, List.all_eq_true] at h
  cases hkey : key.toList with
  | nil =>
    rw [String.toList_eq_nil_iff.mp hkey] at h
    exact absurd h.1 (by decide)
  | cons c rest => exact ⟨c, rest, rfl, by simpa using h.2 c (by simp [hkey])⟩

theorem readable_key : Readable id (isListed · = true)
    (EndsWord fun c => c != ',' && c != ']') Eq := by
  intro k l r s hk hl hr hs h
  have hlisted : ∀ {key : String}, isListed key = true →
      ∀ c ∈ key.toList, (c != ',' && c != ']') = true := fun hkey => by
    rw [isListed, Bool.and_eq_true, List.all_eq_true] at hkey
    exact hkey.2
  obtain ⟨hkl, hrs⟩ := word_append_inj (hlisted hk) (hlisted hl) hr hs h
  exact ⟨String.toList_inj.mp hkl, hrs⟩

theorem readable_entry : Readable entryText (fun entry => entry.2.all isListed = true)
    (fun _ => True) Eq := by
  rintro ⟨i, ks⟩ ⟨j, ls⟩ r s hks hls - - h
  rw [entryText_toList, entryText_toList] at h
  obtain ⟨hij, hlist⟩ := readable_repr i j _ _ trivial trivial (.cons (by decide))
    (.cons (by decide)) (List.cons.inj h).2
  have hfirst : ∀ key, isListed key = true → ∃ c rest, key.toList = c :: rest ∧ c ≠ ']' :=
    fun key hkey => by
      obtain ⟨c, rest, hc, hlisted⟩ := exists_of_isListed hkey
      exact ⟨c, rest, hc, by rintro rfl; exact absurd hlisted (by decide)⟩
  obtain ⟨hkl, hrs⟩ := readable_key.join_closed "," ']' (fun r => .cons (by decide))
    (fun r => .cons (by decide)) (by simp) hfirst (List.all_eq_true.mp hks)
    (List.all_eq_true.mp hls) (by simpa using (List.cons.inj hlist).2)
  exact ⟨Prod.ext hij (List.forall₂_eq_eq_eq ▸ hkl), hrs⟩

/-- A table can be told from its text. -/
theorem text_inj {s t : KeyTable} (hs : legible s = true) (ht : legible t = true)
    (h : text s = text t) : s = t := by
  have hlist : List.Forall₂ Eq s t := readable_entry.commaList (fun r => trivial) trivial
    (fun entry _ hnil => by simpa [hnil] using entryText_toList entry [])
    (List.all_eq_true.mp hs) (List.all_eq_true.mp ht) h
  exact List.forall₂_eq_eq_eq ▸ hlist

end KeyTable

namespace Load

/-- What stands behind the location. -/
def declaredText : Option Schema → List Char
  | some s => ' ' :: 'A' :: "S ".toList ++ s.text.toList
  | none => []

/-- What stands behind the declared columns. -/
def keysText : Option KeyTable → List Char
  | some table => ' ' :: 'K' :: "EYS ".toList ++ table.text.toList
  | none => []

theorem text_toList (l : Load) : l.text.toList = '\'' :: (l.location.toList ++
    '\'' :: (declaredText l.declared ++ keysText l.requiredKeys)) := by
  obtain ⟨location, declared, keys⟩ := l
  cases declared <;> cases keys <;> simp [text, declaredText, keysText]

/-- Whether the parameters of the load can be told from its text. -/
def legible (l : Load) : Bool :=
  isQuotable l.location && l.declared.all Schema.legible && l.requiredKeys.all KeyTable.legible

theorem keysText_inj {s t : Option KeyTable} (hs : s.all KeyTable.legible = true)
    (ht : t.all KeyTable.legible = true) (h : keysText s = keysText t) : s = t := by
  cases s with
  | none =>
    cases t with
    | none => rfl
    | some t => simp [keysText] at h
  | some s =>
    cases t with
    | none => simp [keysText] at h
    | some t =>
      have htext := String.toList_inj.mp (List.append_cancel_left h)
      rw [KeyTable.text_inj hs ht htext]

/-- What the keys are behind cannot be mistaken for a declaration. -/
theorem declaredText_inj {s t : Option Schema} {k k' : Option KeyTable}
    (hs : s.all Schema.legible = true) (ht : t.all Schema.legible = true)
    (h : declaredText s ++ keysText k = declaredText t ++ keysText k') :
    Operation.sameDeclaration s t = true ∧ keysText k = keysText k' := by
  have hne : ∀ {k : Option KeyTable} {s : Schema} {r : List Char},
      keysText k ≠ declaredText (some s) ++ r := fun {k s r} => by
    cases k <;> simp [keysText, declaredText]
  cases s with
  | none =>
    cases t with
    | none => exact ⟨rfl, h⟩
    | some t => exact absurd h hne
  | some s =>
    cases t with
    | none => exact absurd h.symm hne
    | some t =>
      rw [declaredText, declaredText, List.append_assoc, List.append_assoc] at h
      exact Schema.readable_text s t _ _ hs ht trivial trivial (List.append_cancel_left h)

theorem same_of_text_eq {l m : Load} (hl : l.legible = true) (hm : m.legible = true)
    (h : l.text = m.text) : (Operation.load l).same (.load m) = true := by
  simp only [legible, Bool.and_eq_true] at hl hm
  have h := congrArg String.toList h
  rw [text_toList, text_toList] at h
  obtain ⟨hlocation, hrest⟩ := marked_append_inj (by simpa [isQuotable] using hl.1.1)
    (by simpa [isQuotable] using hm.1.1) (List.cons.inj h).2
  obtain ⟨hdeclared, hkeys⟩ := declaredText_inj hl.1.2 hm.1.2 hrest
  simp only [Operation.same, Bool.and_eq_true, beq_iff_eq]
  exact ⟨⟨String.toList_inj.mp hlocation, keysText_inj hl.2 hm.2 hkeys⟩, hdeclared⟩

end Load

/-! ## Lists of formulas -/

namespace Formula.Clear

theorem text_ne_nil {f : Formula} (h : Clear place f) : f.text.toList ≠ [] := by
  obtain ⟨c, rest, hc, -⟩ := h.exists_first
  simp [hc]

theorem text_ne_equals {f : Formula} (h : Clear place f) (r s : List Char) :
    f.text.toList ++ r ≠ '=' :: s := by
  obtain ⟨c, rest, hc, hopen⟩ := h.exists_first
  rw [hc]
  rintro ⟨⟩
  exact absurd hopen (by decide)

/-- Two formulas with the same text, and nothing behind it. -/
theorem same_of_text_eq {f g : Formula} (hf : Clear place f) (hg : Clear place g)
    (h : f.text = g.text) : f.same g = true :=
  (Formula.readable_text f g [] [] hf hg (.inl rfl) (.inl rfl) (by rw [h])).1

end Formula.Clear

namespace Item

/-- What stands behind the formula of an item. -/
def nameText : Option String → List Char
  | some n => ' ' :: 'A' :: "S ".toList ++ n.toList
  | none => []

theorem text_plain (f : Formula) (n : Option String) (u : Uid) (r : List Char) :
    (text ⟨f, false, n, u⟩).toList ++ r = f.text.toList ++ (nameText n ++ r) := by
  cases n <;> simp [text, nameText]

theorem text_flatten (f : Formula) (n : Option String) (u : Uid) (r : List Char) :
    (text ⟨f, true, n, u⟩).toList ++ r =
      'F' :: "LATTEN".toList ++ '(' :: (f.text.toList ++ ')' :: (nameText n ++ r)) := by
  cases n <;> simp [text, nameText]

/-- What an item can end with. -/
def Ends (r : List Char) : Prop := r = [] ∨ ∃ t, r = ',' :: t

theorem nameText_append_inj {n m : Option String} {r s : List Char} (hn : n.all isPlain = true)
    (hm : m.all isPlain = true) (hr : Ends r) (hs : Ends s)
    (h : nameText n ++ r = nameText m ++ s) : n = m ∧ r = s := by
  have hne : ∀ {r s : List Char} {n : String}, Ends r → r ≠ nameText (some n) ++ s := by
    rintro r s n (rfl | ⟨t, rfl⟩) <;> simp [nameText]
  have hword : ∀ {r : List Char}, Ends r → EndsWord isNameChar r := by
    rintro r (rfl | ⟨t, rfl⟩)
    · exact .nil
    · exact .cons (by decide)
  cases n with
  | none =>
    cases m with
    | none => exact ⟨rfl, h⟩
    | some m => exact absurd h (hne hr)
  | some n =>
    cases m with
    | none => exact absurd h.symm (hne hs)
    | some m =>
      rw [nameText, nameText, List.append_assoc, List.append_assoc] at h
      obtain ⟨hnm, hrs⟩ := word_append_inj (isNameChar_of_mem hn) (isNameChar_of_mem hm) (hword hr)
        (hword hs) (List.append_cancel_left h)
      rw [String.toList_inj.mp hnm]
      exact ⟨rfl, hrs⟩

theorem follows_nameText {n : Option String} {r : List Char} (hr : Ends r) :
    Expr.Follows (nameText n ++ r) := by
  cases n with
  | none => exact hr.elim .inl fun h => .inr (.inr (.inl h))
  | some n => exact .inr (.inr (.inr ⟨'A', _, rfl, by decide⟩))

/-- An item can be told from its text, if its name is plain and its formula clear. -/
theorem readable_text : Readable text
    (fun item => item.formula.Clear place ∧ item.name.all isPlain = true) Ends
    (fun a b => (a.flatten == b.flatten && a.name == b.name && a.formula.same b.formula) =
      true) := by
  rintro ⟨f, spread, n, u⟩ ⟨g, spread', m, u'⟩ r s ⟨hf, hn⟩ ⟨hg, hm⟩ hr hs h
  have hcall : ∀ {f : Formula} {r s : List Char}, f.Clear place → Expr.Follows r →
      f.text.toList ++ r ≠ 'F' :: "LATTEN".toList ++ '(' :: s := fun hf hr => by
    obtain ⟨-, e, -, -, -, hlegible, htext⟩ := hf.exists_expr
    rw [htext]
    exact Expr.shown_ne_call hlegible hr (List.all_eq_true.mp (by decide)) (by decide)
  cases spread with
  | false =>
    rw [text_plain] at h
    cases spread' with
    | false =>
      rw [text_plain] at h
      obtain ⟨hsame, hrest⟩ := Formula.readable_text f g _ _ hf hg (follows_nameText hr)
        (follows_nameText hs) h
      obtain ⟨rfl, hrs⟩ := nameText_append_inj hn hm hr hs hrest
      exact ⟨by simp [hsame], hrs⟩
    | true => exact absurd (h.trans (text_flatten g m u' s)) (hcall hf (follows_nameText hr))
  | true =>
    rw [text_flatten] at h
    cases spread' with
    | false => exact absurd (h.trans (text_plain g m u' s)).symm (hcall hg (follows_nameText hs))
    | true =>
      rw [text_flatten] at h
      have h := (List.cons.inj (List.append_cancel_left (List.cons.inj h).2)).2
      obtain ⟨hsame, hrest⟩ := Formula.readable_text f g _ _ hf hg (.inr (.inl ⟨_, rfl⟩))
        (.inr (.inl ⟨_, rfl⟩)) h
      obtain ⟨rfl, hrs⟩ := nameText_append_inj hn hm hr hs (List.cons.inj hrest).2
      exact ⟨by simp [hsame], hrs⟩

theorem text_ne_nil (item : Item) (h : item.formula.Clear place) : item.text.toList ≠ [] := by
  obtain ⟨f, spread, n, u⟩ := item
  intro hnil
  cases spread with
  | false =>
    have := text_plain f n u []
    rw [hnil] at this
    exact h.text_ne_nil (List.append_eq_nil_iff.mp this.symm).1
  | true =>
    have := text_flatten f n u []
    rw [hnil] at this
    simp at this

end Item

/-- A key of a sort can be told from its text, if its formula is clear. -/
theorem SortKey.readable_text : Readable text (fun key => key.formula.Clear place) (fun _ => True)
    (fun a b => (a.ascending == b.ascending && a.formula.same b.formula) = true) := by
  rintro ⟨f, up⟩ ⟨g, up'⟩ r s hf hg - - h
  have htext : ∀ (f : Formula) (up : Bool) (r : List Char),
      (text ⟨f, up⟩).toList ++ r = f.text.toList ++ ' ' ::
        (if up then 'A' :: "SC".toList ++ r else 'D' :: "ESC".toList ++ r) := fun f up r => by
    cases up <;> simp [text]
  have hfollows : ∀ (up : Bool) (r : List Char), Expr.Follows
      (' ' :: if up then 'A' :: "SC".toList ++ r else 'D' :: "ESC".toList ++ r) := fun up r => by
    cases up
    · exact .inr (.inr (.inr ⟨'D', _, rfl, by decide⟩))
    · exact .inr (.inr (.inr ⟨'A', _, rfl, by decide⟩))
  rw [htext, htext] at h
  obtain ⟨hsame, hrest⟩ := Formula.readable_text f g _ _ hf hg (hfollows up r) (hfollows up' s) h
  cases up <;> cases up'
  · exact ⟨by simp [hsame], by simpa using hrest⟩
  · simp at hrest
  · simp at hrest
  · exact ⟨by simp [hsame], by simpa using hrest⟩

theorem SortKey.text_ne_nil (key : SortKey) : key.text.toList ≠ [] := by
  obtain ⟨f, up⟩ := key
  cases up <;> simp [text]

theorem JoinType.name_inj {t u : JoinType} (h : t.name = u.name) : t = u := by
  cases t <;> cases u <;> first | rfl | exact absurd h (by decide)

theorem JoinType.isAlpha_of_mem_name (t : JoinType) : ∀ c ∈ t.name.toList, c.isAlpha = true := by
  cases t <;> exact List.all_eq_true.mp (by decide)

namespace Operation

/-- The keys of one input of a join. -/
def keyText (keys : List Formula) : String := "(" ++ commaList (keys.map Formula.text) ++ ")"

theorem readable_keyText : Readable keyText (∀ f ∈ ·, f.Clear place) (fun _ => True)
    (fun fs gs => pairwise Formula.same fs gs = true) := by
  intro fs gs r s hfs hgs _ _ h
  have htext : ∀ (fs : List Formula) (r : List Char), (keyText fs).toList ++ r =
      '(' :: ((Text.join ", " (fs.map Formula.text)).toList ++ ')' :: r) := fun fs r => by
    simp [keyText, commaList]
  rw [htext, htext] at h
  have hfirst : ∀ f : Formula, f.Clear place → ∃ c rest, f.text.toList = c :: rest ∧ c ≠ ')' :=
    fun f hf => by
      obtain ⟨c, rest, hc, hopen⟩ := hf.exists_first
      exact ⟨c, rest, hc, by rintro rfl; exact absurd hopen (by decide)⟩
  obtain ⟨hall, hrs⟩ := Formula.readable_text.join_closed ", " ')'
    (fun r => .inr (.inr (.inl ⟨_, rfl⟩))) (fun r => .inr (.inl ⟨r, rfl⟩)) (by simp) hfirst hfs hgs
    (List.cons.inj h).2
  exact ⟨pairwise_of_forall₂ hall, hrs⟩

/-- Whether the parameters of an operation can be told from their text, identities of columns
aside. -/
def isClear (place : Nat → String → Nat) : Operation → Bool
  | .load l => l.legible
  | .forEach items => items.all fun item => item.formula.isClear place && item.name.all isPlain
  | o => o.formulas.all (·.isClear place)

/-- An operation with valid formulas whose parameters can be told from their text. -/
structure Clear (place : Nat → String → Nat) (o : Operation) : Prop where
  sound : ∀ f ∈ o.formulas, f.Sound
  valid : ∀ f ∈ o.formulas, f.Valid
  clear : o.isClear place = true

theorem Clear.formulas {o : Operation} (h : o.Clear place) : ∀ f ∈ o.formulas, f.Clear place := by
  refine fun f hf => ⟨h.sound f hf, h.valid f hf, ?_⟩
  have hclear := h.clear
  cases o with
  | load l => simp [Operation.formulas] at hf
  | forEach items =>
    obtain ⟨item, hitem, rfl⟩ := List.mem_map.mp hf
    have := List.all_eq_true.mp hclear item hitem
    simp only [Bool.and_eq_true] at this
    exact this.1
  | _ => exact List.all_eq_true.mp hclear f hf

theorem join_same_of_params_eq {t t' : JoinType} {keys keys' : List (List Formula)}
    (hkeys : ∀ ks ∈ keys, ∀ f ∈ ks, f.Clear place) (hkeys' : ∀ ks ∈ keys', ∀ f ∈ ks, f.Clear place)
    (h : params (.join t keys) = params (.join t' keys')) :
    (Operation.join t keys).same (.join t' keys') = true := by
  have htext : ∀ (t : JoinType) (keys : List (List Formula)), (params (.join t keys)).toList =
      t.name.toList ++ ' ' :: ("BY ".toList ++ (commaList (keys.map keyText)).toList) :=
    fun t keys => by simp [params]; rfl
  have h := congrArg String.toList h
  rw [htext, htext] at h
  obtain ⟨hname, hlist⟩ := word_append_inj t.isAlpha_of_mem_name t'.isAlpha_of_mem_name
    (.cons (by decide)) (.cons (by decide)) h
  have hall := readable_keyText.commaList (fun r => trivial) trivial
    (fun ks _ => by simp [keyText]) hkeys hkeys'
    (String.toList_inj.mp (List.append_cancel_left (List.cons.inj hlist).2))
  rw [JoinType.name_inj (String.toList_inj.mp hname)]
  simpa [same] using pairwise_of_forall₂ hall

theorem Clear.items {items : List Item} (h : Clear place (.forEach items)) :
    ∀ item ∈ items, item.formula.Clear place ∧ item.name.all isPlain = true := by
  intro item hitem
  have hclear := List.all_eq_true.mp (show items.all _ = true from h.clear) item hitem
  simp only [Bool.and_eq_true] at hclear
  exact ⟨h.formulas _ (List.mem_map_of_mem hitem), hclear.2⟩

/-- Operations of one type with the same text are the same, identities of columns aside. -/
theorem same_of_params_eq {o o' : Operation} (ho : o.Clear place) (ho' : o'.Clear place)
    (htype : o.type = o'.type) (h : o.params = o'.params) : o.same o' = true := by
  have hf := ho.formulas
  have hf' := ho'.formulas
  cases o with
  | load l =>
    cases o' with
    | load m => exact Load.same_of_text_eq ho.clear ho'.clear h
    | _ => cases htype
  | store location =>
    cases o' with
    | store location' =>
      have h := congrArg String.toList h
      simp only [params, String.toList_append] at h
      simpa [same] using String.toList_inj.mp (List.append_cancel_left (List.append_cancel_right h))
    | _ => cases htype
  | filter f =>
    cases o' with
    | filter g => exact (hf f (by simp [formulas])).same_of_text_eq (hf' g (by simp [formulas])) h
    | _ => cases htype
  | join t keys =>
    cases o' with
    | join t' keys' =>
      have hmem : ∀ {t : JoinType} {keys : List (List Formula)},
          (∀ f ∈ (Operation.join t keys).formulas, f.Clear place) →
          ∀ ks ∈ keys, ∀ f ∈ ks, f.Clear place := fun hall ks hks f hf =>
        hall f (List.mem_flatten.mpr ⟨ks, hks, hf⟩)
      exact join_same_of_params_eq (hmem hf) (hmem hf') h
    | _ => cases htype
  | forEach items =>
    cases o' with
    | forEach items' =>
      exact pairwise_of_forall₂ (Item.readable_text.commaList (fun r => .inr ⟨r, rfl⟩) (.inl rfl)
        (fun item hitem => item.text_ne_nil hitem.1) ho.items ho'.items h)
    | _ => cases htype
  | splitOutput f =>
    cases o' with
    | splitOutput g =>
      exact (hf f (by simp [formulas])).same_of_text_eq (hf' g (by simp [formulas])) h
    | _ => cases htype
  | sort keys =>
    cases o' with
    | sort keys' =>
      exact pairwise_of_forall₂ (SortKey.readable_text.commaList (fun r => trivial) trivial
        (fun key hkey => key.text_ne_nil)
        (fun key hkey => hf _ (List.mem_map_of_mem hkey))
        (fun key hkey => hf' _ (List.mem_map_of_mem hkey)) h)
    | _ => cases htype
  | limit n =>
    cases o' with
    | limit m =>
      have h : n.repr = m.repr := h
      simpa [same] using repr_toList_inj (congrArg String.toList h)
    | _ => cases htype
  | union _ | cross | distinct | split => cases o' <;> first | rfl | cases htype

/-- No parameters begin with an equals sign. -/
theorem Clear.params_ne_equals {o : Operation} (ho : o.Clear place) (r : List Char) :
    o.params.toList ≠ '=' :: r := by
  have hf := ho.formulas
  cases o with
  | load l => simp [params, Load.text_toList]
  | store location => simp [params]
  | filter f | splitOutput f =>
    intro h
    have h : f.text.toList ++ [] = '=' :: r := by simpa [params] using h
    exact (hf f (by simp [Operation.formulas])).text_ne_equals _ _ h
  | join t keys =>
    intro h
    have hfirst : (params (.join t keys)).toList.head?.all Char.isAlpha = true := by
      cases t <;> simp [params, JoinType.name]
    rw [h] at hfirst
    simp at hfirst
  | forEach items =>
    refine commaList_ne_cons (fun item hitem r s => ?_) r
    have hitem := hf _ (List.mem_map_of_mem hitem)
    obtain ⟨f, spread, n, u⟩ := item
    cases spread with
    | false => exact Item.text_plain f n u r ▸ hitem.text_ne_equals _ _
    | true => rw [Item.text_flatten]; simp
  | sort keys =>
    refine commaList_ne_cons (fun key hkey r s => ?_) r
    have hkey := hf _ (List.mem_map_of_mem hkey)
    rw [SortKey.text, String.toList_append, List.append_assoc]
    exact hkey.text_ne_equals _ _
  | limit n =>
    intro h
    have hdigit := isDigit_of_mem_repr (n := n) (c := '=')
      (by rw [show n.repr.toList = _ from h]; simp)
    exact absurd hdigit (by decide)
  | union _ | cross | distinct | split => simp [params]

end Operation

namespace OperatorType

theorem name_inj {t u : OperatorType} (h : t.name = u.name) : t = u := by
  have hname : ∀ t : OperatorType, ofName? t.name = some t := by
    intro t
    cases t <;> decide
  exact Option.some.inj ((hname t).symm.trans (h ▸ hname u))

theorem isAlpha_of_mem_name (t : OperatorType) : ∀ c ∈ t.name.toList, c.isAlpha = true := by
  cases t <;> exact List.all_eq_true.mp (by decide)

end OperatorType

namespace Operator

/-- The type of an operation and its parameters. -/
def operationText (o : Operation) : List Char :=
  o.type.name.toList ++ if o.params.isEmpty then [] else ' ' :: o.params.toList

theorem text_unnamed (o : Operation) (memo : Option (Option Schema)) :
    (text ⟨none, o, memo⟩).toList = operationText o := by
  simp only [text, operationText, type]
  split <;> simp

theorem text_named (name : String) (o : Operation) (memo : Option (Option Schema)) :
    (text ⟨some name, o, memo⟩).toList =
      name.toList ++ ' ' :: '=' :: ' ' :: operationText o := by
  simp only [text, operationText, type]
  split <;> simp

/-- What stands behind the type ends it. -/
theorem endsWord_behind {kind : Char → Bool} (hkind : kind ' ' = false) (params : String) :
    EndsWord kind (if params.isEmpty then [] else ' ' :: params.toList) := by
  split
  · exact .nil
  · exact .cons hkind

theorem operationText_inj {o o' : Operation} (h : operationText o = operationText o') :
    o.type = o'.type ∧ o.params = o'.params := by
  obtain ⟨htype, hparams⟩ := word_append_inj o.type.isAlpha_of_mem_name
    o'.type.isAlpha_of_mem_name (endsWord_behind (by decide) _) (endsWord_behind (by decide) _) h
  refine ⟨OperatorType.name_inj (String.toList_inj.mp htype), ?_⟩
  by_cases hempty : o.params.isEmpty = true <;> by_cases hempty' : o'.params.isEmpty = true
  · rw [String.isEmpty_iff.mp hempty, String.isEmpty_iff.mp hempty']
  · simp [hempty, hempty'] at hparams
  · simp [hempty, hempty'] at hparams
  · rw [if_neg hempty, if_neg hempty'] at hparams
    exact String.toList_inj.mp (List.cons.inj hparams).2

/-- Whether an operator can be told from its text, identities of columns aside: its name is plain,
and its text goes over one line. -/
def isClear (place : Nat → String → Nat) (op : Operator) : Bool :=
  op.name.all isPlain && op.operation.isClear place && !op.text.toList.contains '\n'

theorem operationText_ne_named {o o' : Operation} {name : String} (ho : o.Clear place)
    (hname : isPlain name = true) :
    operationText o ≠ name.toList ++ ' ' :: '=' :: ' ' :: operationText o' := by
  intro h
  have halpha : ∀ c ∈ o.type.name.toList, isNameChar c = true := fun c hc =>
    isNameChar_of_isAlpha (o.type.isAlpha_of_mem_name c hc)
  obtain ⟨-, hbehind⟩ := word_append_inj halpha (isNameChar_of_mem hname)
    (endsWord_behind (by decide) _) (.cons (by decide)) h
  split at hbehind
  · simp at hbehind
  · exact ho.params_ne_equals _ (List.cons.inj hbehind).2

/-- Operators with the same text are the same, identities of columns aside. -/
theorem same_of_text_eq {a b : Operator} (ha : a.operation.Clear place)
    (hb : b.operation.Clear place) (hname : a.name.all isPlain = true)
    (hname' : b.name.all isPlain = true) (h : a.text = b.text) : a.same b = true := by
  obtain ⟨name, o, memo⟩ := a
  obtain ⟨name', o', memo'⟩ := b
  have h := congrArg String.toList h
  have hsame : name = name' ∧ operationText o = operationText o' := by
    cases name with
    | none =>
      rw [text_unnamed] at h
      cases name' with
      | none => exact ⟨rfl, h.trans (text_unnamed o' memo')⟩
      | some name' => exact absurd (h.trans (text_named _ _ _)) (operationText_ne_named ha hname')
    | some name =>
      rw [text_named] at h
      cases name' with
      | none =>
        exact absurd (h.trans (text_unnamed o' memo')).symm (operationText_ne_named hb hname)
      | some name' =>
        rw [text_named] at h
        obtain ⟨heq, hrest⟩ := word_append_inj (isNameChar_of_mem hname)
          (isNameChar_of_mem hname') (.cons (by decide)) (.cons (by decide)) h
        rw [String.toList_inj.mp heq]
        exact ⟨rfl, (List.cons.inj (List.cons.inj (List.cons.inj hrest).2).2).2⟩
  obtain ⟨rfl, htext⟩ := hsame
  obtain ⟨htype, hparams⟩ := operationText_inj htext
  simp [same, Operation.same_of_params_eq ha hb htype hparams]

end Operator

end Dataflow
