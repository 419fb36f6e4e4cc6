import Dataflow.Proofs.Engine.Operations
import Dataflow.Proofs.Formula.Value
import Dataflow.Proofs.Lists
import Dataflow.Proofs.Plan.Columns
import Dataflow.Proofs.Plan.MapKeys
import Dataflow.Proofs.Sorting.Naturality

/-!
# Rows that agree as far as needed

Two relations agree if they have the same number of rows and each pair of rows agrees, cell by cell,
as far as the column is needed. Every operation keeps this (`filter_agree` to `distinct_agree`), if
what is needed of its inputs covers what its formulas use, what it compares, and what is needed of
its output. Of rows whose columns are not known nothing is said; then no formula reads them.
-/

namespace Dataflow

open Formula

/-! ## Three lists -/

/-- Three lists of the same length with related elements at each place. -/
inductive Forall₃ {α β γ : Type} (R : α → β → γ → Prop) : List α → List β → List γ → Prop
  | nil : Forall₃ R [] [] []
  | cons {a : α} {b : β} {c : γ} {as : List α} {bs : List β} {cs : List γ} : R a b c →
      Forall₃ R as bs cs → Forall₃ R (a :: as) (b :: bs) (c :: cs)

namespace Forall₃

variable {α β γ : Type} {R S : α → β → γ → Prop} {as as' : List α} {bs bs' : List β}
  {cs cs' : List γ}

theorem imp (h : ∀ a b c, R a b c → S a b c) (hall : Forall₃ R as bs cs) : Forall₃ S as bs cs := by
  induction hall with
  | nil => exact .nil
  | cons ha _ ih => exact .cons (h _ _ _ ha) ih

theorem append (h : Forall₃ R as bs cs) (h' : Forall₃ R as' bs' cs') :
    Forall₃ R (as ++ as') (bs ++ bs') (cs ++ cs') := by
  induction h with
  | nil => exact h'
  | cons ha _ ih => exact .cons ha ih

theorem length_eq (h : Forall₃ R as bs cs) : bs.length = as.length ∧ cs.length = as.length := by
  induction h with
  | nil => exact ⟨rfl, rfl⟩
  | cons _ _ ih => simp [ih.1, ih.2]

theorem getElem? (h : Forall₃ R as bs cs) : ∀ {i : Nat} {a : α}, as[i]? = some a →
    ∃ b c, bs[i]? = some b ∧ cs[i]? = some c ∧ R a b c := by
  induction h with
  | nil => intro i a ha; simp at ha
  | cons hab _ ih =>
    intro i a ha
    cases i with
    | zero => exact ⟨_, _, rfl, rfl, Option.some.inj ha ▸ hab⟩
    | succ i => exact ih ha

theorem of_map {δ : Type} {f : δ → α} {g : δ → β} {k : δ → γ} : ∀ {l : List δ},
    (∀ x ∈ l, R (f x) (g x) (k x)) → Forall₃ R (l.map f) (l.map g) (l.map k)
  | [], _ => .nil
  | _ :: _, h => .cons (h _ (by simp)) (of_map fun x hx => h x (by simp [hx]))

end Forall₃

namespace Needs

variable {n n' : Needs} {u : Uid} {us vs : List Uid} {cols cols' : Columns}
  {a b a' b' : Row} {x y z : Value}

/-! ## Rows -/

theorem Agree.trans (h : n.Agree u x y) (h' : n.Agree u y z) : n.Agree u x z := by
  rcases h with rfl | ⟨hu, es, fs, rfl, rfl, hk⟩
  · exact h'
  · rcases h' with rfl | ⟨-, es', fs', heq, rfl, hk'⟩
    · exact .inr ⟨hu, es, fs, rfl, rfl, hk⟩
    · obtain rfl := Value.map.inj heq
      exact .inr ⟨hu, es, fs', rfl, rfl, fun k hm => (hk k hm).trans (hk' k hm)⟩

/-- The cells of two rows with these columns agree. -/
def RowsAgree (n : Needs) : Columns → Row → Row → Prop
  | some us, a, b => Forall₃ n.Agree us a b
  | none, _, _ => True

/-- Two relations with these columns have as many rows, and the rows agree. -/
abbrev RelationsAgree (n : Needs) (cols : Columns) : Relation → Relation → Prop :=
  List.Forall₂ (n.RowsAgree cols)

theorem RowsAgree.mono (hle : n.Le n') (h : n'.RowsAgree cols a b) : n.RowsAgree cols a b := by
  cases cols with
  | none => trivial
  | some us => exact h.imp fun _ _ _ hxy => hxy.mono hle

theorem RowsAgree.append (h : n.RowsAgree cols a b) (h' : n.RowsAgree cols' a' b') :
    n.RowsAgree (Columns.beside cols cols') (a ++ a') (b ++ b') := by
  cases cols with
  | none => trivial
  | some us =>
    cases cols' with
    | none => trivial
    | some vs => exact Forall₃.append h h'

theorem forall₃_agree_self : ∀ {us : List Uid} {a : Row}, a.length = us.length →
    Forall₃ n.Agree us a a
  | [], [], _ => .nil
  | _ :: _, _ :: _, h => .cons (.inl rfl) (forall₃_agree_self (by simpa using h))

/-- A row agrees with itself if it is as wide as its columns say. -/
theorem RowsAgree.self (h : ∀ us, cols = some us → a.length = us.length) :
    n.RowsAgree cols a a := by
  cases cols with
  | none => trivial
  | some us => exact forall₃_agree_self (h us rfl)

theorem RowsAgree.length (h : n.RowsAgree (some us) a b) : a.length = us.length :=
  (Forall₃.length_eq h).1

/-- Rows that are needed as a whole are equal. -/
theorem RowsAgree.eq_of_whole (h : n.RowsAgree (some us) a b) (hus : ∀ u ∈ us, u ∈ n.whole) :
    a = b := by
  replace h : Forall₃ n.Agree us a b := h
  induction h with
  | nil => rfl
  | cons hxy _ ih =>
    obtain ⟨hu, hus⟩ := List.forall_mem_cons.mp hus
    rw [hxy.eq_of_whole hu, ih hus]

/-- Rows agree also as rows with other columns of which less is needed. -/
theorem rowsAgree_of_columns (h : n.RowsAgree (some us) a b) : ∀ {vs : List Uid},
    us.length = vs.length → (∀ (i : Nat) u v, us[i]? = some u → vs[i]? = some v →
      ∀ x y, n.Agree u x y → n'.Agree v x y) → n'.RowsAgree (some vs) a b := by
  replace h : Forall₃ n.Agree us a b := h
  induction h with
  | nil =>
    intro vs hlen _
    obtain rfl := List.length_eq_zero_iff.mp hlen.symm
    exact Forall₃.nil
  | cons hxy _ ih =>
    intro vs hlen hcols
    match vs, hlen with
    | v :: vs, hlen =>
      exact Forall₃.cons (hcols 0 _ _ rfl rfl _ _ hxy)
        (ih (by simpa using hlen) fun i u v hu hv => hcols (i + 1) u v hu hv)

/-! ## What formulas see -/

/-- What is needed of the inputs covers a use of a column. -/
def Covers (n : Needs) (inputs : List Columns) : ColumnUse → Prop
  | .whole input i => ∃ us u, inputs[input]? = some (some us) ∧ us[i]? = some u ∧ u ∈ n.whole
  | .key input i k => ∃ us u, inputs[input]? = some (some us) ∧ us[i]? = some u ∧ k ∈ n.keysOf u

/-- What is needed of the inputs covers all that a valid formula uses. -/
structure CoversFormula (n : Needs) (inputs : List Columns) (f : Formula) : Prop where
  sound : f.Sound
  valid : f.Valid
  uses : ∀ use ∈ f.columnUses, n.Covers inputs use

/-- The rows that a formula looks at agree input by input, or are equal. -/
def ViewsAgree (n : Needs) (inputs : List Columns) (rows rows' : Rows) : Prop :=
  ∀ i : Nat, rows[i]? = rows'[i]? ∨
    ∃ a b, rows[i]? = some a ∧ rows'[i]? = some b ∧ n.RowsAgree (inputs[i]?).join a b

theorem ViewsAgree.cell {inputs : List Columns} {rows rows' : Rows}
    (h : n.ViewsAgree inputs rows rows') {input i : Nat} (hus : inputs[input]? = some (some us))
    (hu : us[i]? = some u) : n.Agree u (cell rows input i) (cell rows' input i) := by
  unfold Formula.cell
  rcases h input with heq | ⟨a, b, ha, hb, hab⟩
  · rw [heq]
    exact .inl rfl
  · rw [hus] at hab
    obtain ⟨x, y, hx, hy, hxy⟩ := Forall₃.getElem? hab hu
    simpa [ha, hb, hx, hy] using hxy

/-- A formula has the same value on rows that agree. -/
theorem CoversFormula.value {inputs : List Columns} {rows rows' : Rows} {f : Formula}
    (hf : n.CoversFormula inputs f) (h : n.ViewsAgree inputs rows rows') :
    f.value rows = f.value rows' := by
  refine value_of_uses hf.sound hf.valid fun use huse => ?_
  cases use with
  | whole input i =>
    obtain ⟨us, u, hus, hu, hw⟩ := hf.uses _ huse
    exact (h.cell hus hu).eq_of_whole hw
  | key input i k =>
    obtain ⟨us, u, hus, hu, hk⟩ := hf.uses _ huse
    exact (h.cell hus hu).lookupValue hk

theorem viewsAgree_single {inputs : List Columns}
    (h : n.RowsAgree cols a b) : n.ViewsAgree (cols :: inputs) [a] [b] := fun i => by
  cases i with
  | zero => exact .inr ⟨a, b, rfl, rfl, h⟩
  | succ i => exact .inl (by simp)

theorem viewsAgree_set {inputs : List Columns} {i m : Nat} (hi : i < m)
    (h : n.RowsAgree (inputs[i]?).join a b) :
    n.ViewsAgree inputs ((List.replicate m []).set i a) ((List.replicate m []).set i b) := by
  intro j
  by_cases hj : i = j
  · subst hj
    exact .inr ⟨a, b, by simp [hi], by simp [hi], h⟩
  · exact .inl (by rw [List.getElem?_set_ne hj, List.getElem?_set_ne hj])

theorem CoversFormula.holds {inputs : List Columns} {rows rows' : Rows} {f : Formula}
    (hf : n.CoversFormula inputs f) (h : n.ViewsAgree inputs rows rows') :
    f.holds rows = f.holds rows' := by
  unfold Formula.holds
  rw [hf.value h]

end Needs

/-! ## Results that agree -/

/-- Two results fail in the same way, or are related. -/
def ResultsAgree {α β : Type} (R : α → β → Prop) : RunResult α → RunResult β → Prop
  | .ok a, .ok b => R a b
  | .error e, .error e' => e = e'
  | _, _ => False

namespace ResultsAgree

variable {α β γ δ : Type} {R : α → β → Prop} {S : γ → δ → Prop} {x : RunResult α}
  {y : RunResult β}

theorem of_eq {r : RunResult α} : ResultsAgree (fun a b => a = b) r r := by
  cases r <;> rfl

theorem bind (h : ResultsAgree R x y) {f : α → RunResult γ} {g : β → RunResult δ}
    (hfg : ∀ a b, R a b → ResultsAgree S (f a) (g b)) : ResultsAgree S (x >>= f) (y >>= g) := by
  cases x <;> cases y <;> first | exact h | exact h.elim | exact hfg _ _ h

theorem exists_iff (h : ResultsAgree R x y) : (∃ a, x = .ok a) ↔ ∃ b, y = .ok b := by
  cases x <;> cases y <;> first | exact h.elim | simp

theorem getD {as : RunResult (List α)} {bs : RunResult (List β)}
    (h : ResultsAgree (List.Forall₂ R) as bs) :
    List.Forall₂ R (as.toOption.getD []) (bs.toOption.getD []) := by
  cases as <;> cases bs <;> first | exact h.elim | exact h | exact .nil

theorem mapM {f : α → RunResult γ} {g : β → RunResult δ}
    (hfg : ∀ a b, R a b → ResultsAgree S (f a) (g b)) : ∀ {as : List α} {bs : List β},
    List.Forall₂ R as bs → ResultsAgree (List.Forall₂ S) (as.mapM f) (bs.mapM g)
  | [], [], .nil => .nil
  | _ :: _, _ :: _, .cons hab h => by
    rw [List.mapM_cons, List.mapM_cons]
    exact (hfg _ _ hab).bind fun c d hcd => (mapM hfg h).bind fun cs ds hcds => .cons hcd hcds

end ResultsAgree

namespace Relation

variable {n : Needs} {cols : Columns} {inputs : List Columns}
  {rel rel' : Relation} {f : Formula}

/-! ## Filters and generated rows -/

theorem filter_agree (hf : n.CoversFormula (cols :: inputs) f)
    (h : n.RelationsAgree cols rel rel') :
    n.RelationsAgree cols (List.filter (keeps f) rel) (List.filter (keeps f) rel') ∧
      ((∀ row ∈ rel, ∃ k, f.holds [row] = .ok k) ↔ ∀ row ∈ rel', ∃ k, f.holds [row] = .ok k) := by
  have hholds : ∀ a b, n.RowsAgree cols a b → f.holds [a] = f.holds [b] := fun a b hab =>
    hf.holds (Needs.viewsAgree_single hab)
  refine ⟨List.rel_filter (fun a b hab => ?_) h, Lists.forall_mem_congr (fun a b hab => ?_) h⟩
  · change keeps f a = true ↔ keeps f b = true
    unfold keeps
    rw [hholds a b hab]
  · rw [hholds a b hab]

theorem generateRow_agree {a b : Row} (hab : n.RowsAgree cols a b) : ∀ {items : List Item},
    (∀ item ∈ items, n.CoversFormula (cols :: inputs) item.formula) → ∀ made : Relation,
    generateRow a items made = generateRow b items made
  | [], _, _ => rfl
  | item :: items, hitems, made => by
    obtain ⟨hitem, hitems⟩ := List.forall_mem_cons.mp hitems
    have ih := generateRow_agree hab hitems
    unfold generateRow
    rw [hitem.value (Needs.viewsAgree_single hab)]
    simp only [ih]

/-- Items without flattening make one row, with a cell for each. -/
theorem generateRow_width {row : Row} : ∀ {items : List Item} {made out : Relation} {w : Nat},
    (∀ item ∈ items, item.flatten = false) → (∀ r ∈ made, r.length = w) →
    generateRow row items made = .ok out → ∀ r ∈ out, r.length = w + items.length
  | [], made, out, w, _, hmade, h => by
    obtain rfl := Except.ok.inj h
    exact hmade
  | item :: items, made, out, w, hitems, hmade, h => by
    obtain ⟨hitem, hitems⟩ := List.forall_mem_cons.mp hitems
    unfold generateRow at h
    obtain ⟨v, -, h⟩ := Pass.except_bind_eq_ok.mp h
    have hextend : extend item.flatten v made = made.map (· ++ [v]) := by
      rw [hitem]
      rfl
    rw [hextend] at h
    have hwide : ∀ r ∈ made.map (· ++ [v]), r.length = w + 1 := fun r hr => by
      obtain ⟨r₀, hr₀, rfl⟩ := List.mem_map.mp hr
      rw [List.length_append, hmade r₀ hr₀]
      rfl
    intro r hr
    have := generateRow_width hitems hwide h r hr
    rw [this, List.length_cons]
    omega

theorem generated_agree {items : List Item} (hflat : ∀ item ∈ items, item.flatten = false)
    (hitems : ∀ item ∈ items, n.CoversFormula (cols :: inputs) item.formula)
    (h : n.RelationsAgree cols rel rel') {n' : Needs} {cols' : Columns}
    (hcols : ∀ us, cols' = some us → us.length = items.length) :
    n'.RelationsAgree cols' (rel.flatMap (generated items)) (rel'.flatMap (generated items)) ∧
      ((∀ row ∈ rel, ∃ out, generateRow row items [[]] = .ok out) ↔
        ∀ row ∈ rel', ∃ out, generateRow row items [[]] = .ok out) := by
  have hrow : ∀ a b, n.RowsAgree cols a b →
      generateRow a items [[]] = generateRow b items [[]] := fun a b hab =>
    generateRow_agree hab hitems _
  have hsame : rel.flatMap (generated items) = rel'.flatMap (generated items) :=
    Lists.flatMap_congr (fun a b hab => by rw [generated, generated, hrow a b hab]) h
  refine ⟨?_, Lists.forall_mem_congr (fun a b hab => by rw [hrow a b hab]) h⟩
  rw [← hsame]
  refine List.forall₂_same.mpr fun row hrow => Needs.RowsAgree.self fun us hus => ?_
  obtain ⟨a, -, hmade⟩ := List.mem_flatMap.mp hrow
  rw [hcols us hus]
  cases hout : generateRow a items [[]] with
  | error e => simp [generated, hout, Except.toOption] at hmade
  | ok out =>
    have := generateRow_width (w := 0) hflat (by simp) hout row
      (by simpa [generated, hout, Except.toOption] using hmade)
    omega

/-! ## Rows with keys -/

/-- Rows with equal keys agree. -/
def KeyedAgree {κ : Type} (n : Needs) (cols : Columns) (x y : κ × Row) : Prop :=
  x.1 = y.1 ∧ n.RowsAgree cols x.2 y.2

theorem keyed_agree {κ : Type} {key key' : Row → RunResult κ}
    (hkey : ∀ a b, n.RowsAgree cols a b → key a = key' b) (h : n.RelationsAgree cols rel rel') :
    ResultsAgree (List.Forall₂ (KeyedAgree n cols))
      (rel.mapM fun row => do return (← key row, row))
      (rel'.mapM fun row => do return (← key' row, row)) := by
  refine ResultsAgree.mapM (fun a b hab => ?_) h
  rw [hkey a b hab]
  exact ResultsAgree.of_eq.bind fun k k' hk => ⟨hk, hab⟩

/-- Formulas have the same values on rows that agree. -/
theorem mapM_value_agree (fs : List Formula) {rows rows' : Formula.Rows}
    (hfs : ∀ f ∈ fs, n.CoversFormula inputs f) (h : n.ViewsAgree inputs rows rows') :
    fs.mapM (·.value rows) = fs.mapM (·.value rows') := by
  induction fs with
  | nil => rfl
  | cons f fs ih =>
    obtain ⟨hf, hfs⟩ := List.forall_mem_cons.mp hfs
    rw [List.mapM_cons, List.mapM_cons, hf.value h, ih hfs]

theorem sort_agree {keys : List SortKey}
    (hkeys : ∀ key ∈ keys, n.CoversFormula (cols :: inputs) key.formula)
    (h : n.RelationsAgree cols rel rel') :
    ResultsAgree (n.RelationsAgree cols) (Relation.sort keys rel) (Relation.sort keys rel') := by
  have hvalues : ∀ a b, n.RowsAgree cols a b →
      keys.mapM (fun key => key.formula.value [a]) =
        keys.mapM fun key => key.formula.value [b] := fun a b hab => by
    have := mapM_value_agree (keys.map SortKey.formula)
      (fun f hf => by
        obtain ⟨key, hkey, rfl⟩ := List.mem_map.mp hf
        exact hkeys key hkey) (Needs.viewsAgree_single hab)
    simpa only [List.mapM_map, Function.comp_def] using this
  refine (keyed_agree hvalues h).bind fun keyed keyed' hkeyed => ?_
  refine List.forall₂_map_left_iff.mpr (List.forall₂_map_right_iff.mpr ?_)
  exact (Sorting.sort_forall₂ (R := KeyedAgree n cols)
    (fun a b a' b' hab hab' => by rw [hab.1, hab'.1]) hkeyed).imp fun a b hab => hab.2

/-! ## Products and joins -/

/-- Rows with columns beside those of every listed input. -/
theorem foldl_agree {α : Type} {S : Columns → α → α → Prop} {β : Type}
    {T : Columns → β → β → Prop} {step : α → β → α}
    (hstep : ∀ cols cols' a a' b b', S cols a a' → T cols' b b' →
      S (Columns.beside cols cols') (step a b) (step a' b')) {rels rels' : List β}
    (h : Forall₃ T inputs rels rels') : ∀ {cols : Columns} {a a' : α}, S cols a a' →
      S (Columns.beside cols (Columns.sideBySide inputs)) (rels.foldl step a)
      (rels'.foldl step a') := by
  induction h with
  | nil =>
    intro cols a a' ha
    rwa [Columns.sideBySide, List.foldr_nil, Columns.beside_nil]
  | cons hb _ ih =>
    intro cols a a' ha
    rw [List.foldl_cons, List.foldl_cons, Columns.sideBySide, List.foldr_cons,
      ← Columns.beside_assoc]
    exact ih (hstep _ _ _ _ _ _ ha hb)

theorem cross_agree {rels rels' : List Relation}
    (h : Forall₃ n.RelationsAgree inputs rels rels') :
    n.RelationsAgree (Columns.sideBySide inputs) (cross rels) (cross rels') := by
  have hstart : n.RelationsAgree (some []) [[]] [[]] := .cons .nil .nil
  have hcross := foldl_agree (S := n.RelationsAgree) (T := n.RelationsAgree)
    (fun cols cols' acc acc' rel rel' hacc hrel => List.rel_flatMap (R := n.RowsAgree cols) hacc
      fun l l' hl => List.rel_map (R := n.RowsAgree cols') (fun r r' hr => hl.append hr) hrel)
    h hstart
  rwa [Columns.nil_beside] at hcross

/-- Lists of rows with keys. -/
abbrev KeyedListsAgree (n : Needs) (cols : Columns) : List Keyed → List Keyed → Prop :=
  List.Forall₂ (KeyedAgree n cols)

theorem innerJoin_agree {keyed keyed' : List (List Keyed)}
    (h : Forall₃ (KeyedListsAgree n) inputs keyed keyed') :
    n.RelationsAgree (Columns.sideBySide inputs) (innerJoin keyed) (innerJoin keyed') := by
  cases h with
  | nil => exact .nil
  | cons hfirst hrest =>
    refine List.rel_map (R := KeyedAgree n _) (fun x y hxy => hxy.2) ?_
    refine foldl_agree (S := KeyedListsAgree n) (fun cols cols' acc acc' rel rel' hacc hrel =>
      List.rel_flatMap hacc fun x x' hx => ?_) hrest hfirst
    obtain ⟨k, l⟩ := x
    obtain ⟨k', l'⟩ := x'
    obtain ⟨rfl, hl⟩ := hx
    refine List.rel_map (fun y y' hy => ⟨rfl, hl.append hy.2⟩)
      (List.rel_filter (R := KeyedAgree n cols') (fun y y' hy => ?_) hrel)
    dsimp only
    rw [hy.1]

theorem nulls_agree {w w' : Nat} (h : ∀ us, cols = some us → w = us.length ∧ w' = us.length) :
    n.RowsAgree cols (nulls w) (nulls w') := by
  cases cols with
  | none => trivial
  | some us =>
    obtain ⟨rfl, rfl⟩ := h us rfl
    exact Needs.forall₃_agree_self (by simp [nulls])

theorem outerJoin_agree {keepLeft keepRight : Bool} {left left' right right' : List Keyed}
    {cols cols' : Columns} {wl wl' wr wr' : Nat} (hleft : KeyedListsAgree n cols left left')
    (hright : KeyedListsAgree n cols' right right')
    (hwl : ∀ us, cols = some us → wl = us.length ∧ wl' = us.length)
    (hwr : ∀ us, cols' = some us → wr = us.length ∧ wr' = us.length) :
    n.RelationsAgree (Columns.beside cols cols') (outerJoin keepLeft keepRight left right wl wr)
      (outerJoin keepLeft keepRight left' right' wl' wr') := by
  unfold outerJoin
  refine List.rel_append (List.rel_flatMap (R := KeyedAgree n cols) hleft fun x x' hx => ?_) ?_
  · obtain ⟨k, l⟩ := x
    obtain ⟨k', l'⟩ := x'
    obtain ⟨rfl, hl⟩ := hx
    have hpartner : hasPartner k right = hasPartner k right' :=
      Lists.any_congr (R := KeyedAgree n cols') (fun y y' hy => by dsimp only; rw [hy.1]) hright
    dsimp only
    rw [hpartner]
    split
    · refine List.rel_map (fun y y' hy => hl.append hy.2)
        (List.rel_filter (R := KeyedAgree n cols') (fun y y' hy => ?_) hright)
      dsimp only
      rw [hy.1]
    · split
      · exact .cons (hl.append (nulls_agree hwr)) .nil
      · exact .nil
  · split
    · refine List.rel_map (fun y y' hy => (nulls_agree hwl).append hy.2)
        (List.rel_filter (R := KeyedAgree n cols') (fun y y' hy => ?_) hright)
      have hlonely : (left.any fun x => keysMatch x.1 y.1) =
          left'.any fun x => keysMatch x.1 y'.1 :=
        Lists.any_congr (R := KeyedAgree n cols) (fun x x' hx => by rw [hx.1, hy.1]) hleft
      dsimp only
      rw [hlonely]
    · exact .nil

theorem widthOf_of_columns {us : List Uid} (h : cols = some us) (rel : List Keyed) :
    widthOf (cols.map List.length) rel = us.length := by
  rw [h]
  rfl

theorem outerJoin_sideBySide {keepLeft keepRight : Bool} {left left' right right' : List Keyed}
    {cols cols' : Columns} (hleft : KeyedListsAgree n cols left left')
    (hright : KeyedListsAgree n cols' right right') :
    n.RelationsAgree (Columns.sideBySide [cols, cols'])
      (outerJoin keepLeft keepRight left right (widthOf (cols.map List.length) left)
        (widthOf (cols'.map List.length) right))
      (outerJoin keepLeft keepRight left' right' (widthOf (cols.map List.length) left')
        (widthOf (cols'.map List.length) right')) := by
  have hcols : Columns.sideBySide [cols, cols'] = Columns.beside cols cols' :=
    congrArg (Columns.beside cols) (Columns.beside_nil cols')
  rw [hcols]
  exact outerJoin_agree hleft hright
    (fun us hus => ⟨widthOf_of_columns hus left, widthOf_of_columns hus left'⟩)
    (fun us hus => ⟨widthOf_of_columns hus right, widthOf_of_columns hus right'⟩)

/-- The rows of every input with their keys. -/
theorem allWithKeys_agree (m : Nat) {part : List Columns}
    {rels rels' : List Relation} (h : Forall₃ n.RelationsAgree part rels rels') :
    ∀ (keys : List (List Formula)) (k : Nat), keys.length = part.length →
      (∀ ks ∈ keys, ∀ f ∈ ks, n.CoversFormula inputs f) →
      (∀ i < part.length, part[i]? = inputs[k + i]? ∧ k + i < m) →
      ResultsAgree (Forall₃ (KeyedListsAgree n) part)
        (((keys.zip rels).zipIdx k).mapM fun ((ks, rel), i) => withKeys ks i m rel)
        (((keys.zip rels').zipIdx k).mapM fun ((ks, rel), i) => withKeys ks i m rel) := by
  induction h with
  | nil =>
    intro keys k hlen _ _
    rw [List.length_eq_zero_iff.mp hlen]
    exact Forall₃.nil
  | @cons cols rel rel' part rels rels' hrel _ ih =>
    intro keys k hlen hkeys hpart
    match keys, hlen with
    | ks :: keys, hlen =>
      obtain ⟨hks, hkeys⟩ := List.forall_mem_cons.mp hkeys
      obtain ⟨hfirst, hk⟩ := hpart 0 (by simp)
      have hkeyed : ResultsAgree (KeyedListsAgree n cols) (withKeys ks k m rel)
          (withKeys ks k m rel') := by
        refine keyed_agree (fun a b hab => mapM_value_agree ks hks
          (Needs.viewsAgree_set (by simpa using hk) ?_)) hrel
        rw [← show some cols = inputs[k]? by simpa using hfirst]
        exact hab
      have hothers := ih keys (k + 1) (by simpa using hlen) hkeys fun i hi => by
        have := hpart (i + 1) (by simpa using hi)
        rw [List.getElem?_cons_succ] at this
        rwa [show k + 1 + i = k + (i + 1) by omega]
      rw [List.zip_cons_cons, List.zip_cons_cons, List.zipIdx_cons, List.zipIdx_cons,
        List.mapM_cons, List.mapM_cons]
      exact hkeyed.bind fun x x' hx => hothers.bind fun xs xs' hxs => .cons hx hxs

theorem join_agree (type : JoinType) {keys : List (List Formula)} {rels rels' : List Relation}
    (hkeys : ∀ ks ∈ keys, ∀ f ∈ ks, n.CoversFormula inputs f)
    (h : Forall₃ n.RelationsAgree inputs rels rels') {widths : List (Option Nat)}
    (hwidths : widths = inputs.map (·.map List.length)) :
    ResultsAgree (n.RelationsAgree (Columns.sideBySide inputs)) (join type keys rels widths)
      (join type keys rels' widths) := by
  obtain ⟨hlen, hlen'⟩ := h.length_eq
  unfold join
  rw [hlen, hlen']
  split
  · rfl
  rename_i hkeylen
  have hkeyed := allWithKeys_agree inputs.length h keys 0
    (by simpa using hkeylen) hkeys fun i hi => ⟨by simp, by simpa using hi⟩
  unfold allWithKeys
  rw [hlen, hlen']
  refine ResultsAgree.bind hkeyed fun keyed keyed' hall => ?_
  cases type with
  | inner => exact innerJoin_agree hall
  | _ =>
    subst hwidths
    cases hall with
    | nil => exact rfl
    | cons hleft hrest =>
      cases hrest with
      | nil => exact rfl
      | cons hright hrest =>
        cases hrest with
        | nil => exact outerJoin_sideBySide hleft hright
        | cons _ _ => exact rfl

/-! ## Distinct rows, unions and loads -/

theorem mem_distinctFrom {row : Row} : ∀ {rel : Relation} {seen : List Row},
    row ∈ distinctFrom seen rel → row ∈ rel
  | [], _, h => by simp [distinctFrom] at h
  | r :: rel, seen, h => by
    unfold distinctFrom at h
    split at h
    · exact List.mem_cons_of_mem _ (mem_distinctFrom h)
    · rcases List.mem_cons.mp h with rfl | h
      · exact List.mem_cons_self
      · exact List.mem_cons_of_mem _ (mem_distinctFrom h)

/-- Relations whose columns are needed as a whole are equal. -/
theorem eq_of_whole {us : List Uid} (h : n.RelationsAgree (some us) rel rel')
    (hus : ∀ u ∈ us, u ∈ n.whole) : rel = rel' := by
  induction h with
  | nil => rfl
  | cons hab _ ih => rw [hab.eq_of_whole hus, ih]

theorem distinct_agree {n' : Needs} {us : List Uid} (h : n.RelationsAgree (some us) rel rel')
    (hus : ∀ u ∈ us, u ∈ n.whole) :
    n'.RelationsAgree (some us) (distinct rel) (distinct rel') := by
  have hwidth : ∀ row ∈ rel, row.length = us.length := by
    clear hus
    induction h with
    | nil => simp
    | cons hab _ ih => exact List.forall_mem_cons.mpr ⟨hab.length, ih⟩
  rw [← eq_of_whole h hus]
  refine List.forall₂_same.mpr fun row hrow => Needs.forall₃_agree_self ?_
  exact hwidth row (mem_distinctFrom hrow)

theorem flatten_agree {n' : Needs} {rels rels' : List Relation}
    (h : Forall₃ n'.RelationsAgree inputs rels rels')
    (hrow : ∀ cols' ∈ inputs, ∀ a b, n'.RowsAgree cols' a b → n.RowsAgree cols a b) :
    n.RelationsAgree cols rels.flatten rels'.flatten := by
  induction h with
  | nil => exact .nil
  | cons hrel _ ih =>
    obtain ⟨hfirst, hrow⟩ := List.forall_mem_cons.mp hrow
    exact List.rel_append (hrel.imp hfirst) (ih hrow)

theorem restrictCell_agree {us : List Uid} {a b : Row} {keys : List String}
    (h : Forall₃ n.Agree us a b) : ∀ {i : Nat},
      (∀ u, us[i]? = some u → u ∉ n.whole ∧ ∀ k ∈ n.keysOf u, k ∈ keys) →
      Forall₃ n.Agree us a (b.modify i (restrictMap keys)) := by
  induction h with
  | nil => intro i _; simpa using Forall₃.nil
  | @cons u x y us a b hxy h ih =>
    intro i hi
    cases i with
    | zero =>
      obtain ⟨hu, hkeys⟩ := hi u rfl
      exact .cons (hxy.trans (Needs.agree_restrictMap hu hkeys y)) h
    | succ i => exact .cons hxy (ih fun v hv => hi v hv)

/-- A row agrees with itself restricted to the keys that are needed. -/
theorem restrictRow_agree {us : List Uid} : ∀ {table : KeyTable} {a b : Row},
    Forall₃ n.Agree us a b → (∀ x ∈ table, ∀ u, us[x.1]? = some u →
      u ∉ n.whole ∧ ∀ k ∈ n.keysOf u, k ∈ x.2) → Forall₃ n.Agree us a (restrictRow table b)
  | [], _, _, h, _ => h
  | x :: table, a, b, h, htable => by
    obtain ⟨hx, htable⟩ := List.forall_mem_cons.mp htable
    exact restrictRow_agree (b := b.modify x.1 (restrictMap x.2)) (restrictCell_agree h hx) htable

end Relation

end Dataflow
